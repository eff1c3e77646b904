import OsAssignments.Remount
import OsAssignments.WriteCases

/-!
# The size of the object table

The inode bitmap has a bit for each of 1015808 slots. The mapping of the table has
room for 961194 records of 96 bytes, and the 4048 bytes of each table block that an
unmount writes and a mount reads back have room for 949930. Nothing but the bitmap
bounds the searches, so the records fit exactly as long as slots below that are handed out.
-/
namespace OsAssignments.TableSize

open ByteMemory Bitmap ObjectTable Builds
open Machine (Along)

variable {build : Build} {s s' s'' : Store} {n m : ℕ} {key newname : CString} {d : Device}

/-- The records that the table blocks have room for on the disk. -/
def tableRecords : ℕ := objectBlock * 4048 / 96

lemma tableRecords_eq : tableRecords = 949930 := rfl

/-- Record `n` lies inside the mapping and inside the bytes that are saved, and the mark for
it belongs to a table block. -/
def RecordFits (n : ℕ) : Prop :=
  InObjs n ∧ 96 * n + 96 ≤ objectBlock * 4048 ∧ n / 46 < objectBlock

instance (n : ℕ) : Decidable (RecordFits n) := inferInstanceAs (Decidable (_ ∧ _ ∧ _))

/-- The bytes that are saved decide. -/
lemma recordFits_iff : RecordFits n ↔ n < tableRecords := by
  rw [RecordFits, inObjs_iff, objectBlock_eq, tableRecords_eq]
  omega

/-- A session may end with an unmount and go on with a mount. -/
inductive Event where
  | call (op : Op)
  | remount

def step (build : Build) (s : Store) : Event → Option (Store × Reply)
  | .call op => exec build s op
  | .remount => some (objstoreInit (objstoreDestroy s), { ret := 0 })

/-- The records a call looks at: the one `create_object` takes, and those whose key a
search compares, up to the one it finds. -/
def Reads (s : Store) (op : Op) (n : ℕ) : Prop :=
  match op with
  | .create _ => FirstFree s.bitMapInode slotCount n
  | .rename key _ => n < slotCount ∧ s.live n = true ∧ ∀ m < n, s.named key m = false
  | .destroy key => n < slotCount ∧ s.live n = true ∧ ∀ m < n, s.named key m = false
  | .find key => n < slotCount ∧ s.live n = true ∧ ∀ m < n, s.named key m = false
  | _ => False

/-- Every record that is looked at fits. -/
def Fit (s : Store) : Event → Prop
  | .call op => ∀ n, Reads s op n → RecordFits n
  | .remount => True

/-- A new object finds a free slot among the records that fit, or none at all. -/
def Room (s : Store) : Event → Prop
  | .call (.create _) =>
    (freeBits s.bitMapInode tableRecords).Nonempty ∨ freeBits s.bitMapInode slotCount = ∅
  | _ => True

section Create

/-- The slot handed out fits when there is room. -/
theorem fit_create_iff (s : Store) (key : CString) :
    Fit s (.call (.create key)) ↔ Room s (.call (.create key)) := by
  constructor
  · intro hfit
    rcases (freeBits s.bitMapInode slotCount).eq_empty_or_nonempty with hfull | hfree
    · exact Or.inr hfull
    · obtain ⟨n, hn⟩ := exists_firstFree hfree
      have hlt : n < tableRecords := recordFits_iff.mp (hfit n hn)
      exact Or.inl ⟨n, by simp [hlt, hn.clear]⟩
  · rintro (⟨k, hk⟩ | hfull) n hn
    · rw [mem_freeBits] at hk
      have hle : n ≤ k := by
        by_contra hlt
        have hset := hn.2.2 k (by omega)
        simp [hk.2] at hset
      exact recordFits_iff.mpr (by omega)
    · have hmem : n ∈ freeBits s.bitMapInode slotCount := by simp [hn.1, hn.clear]
      rw [hfull] at hmem
      exact absurd hmem (Finset.notMem_empty n)

end Create

section Transfers

/-! No call changes which transfers fail. -/

lemma writeBack_fails (d : Device) (o : ℤ) :
    (BlockCache.writeBack d o).disk.fails = d.disk.fails := by
  unfold BlockCache.writeBack
  split_ifs
  · exact writeBlock_fails _ _ _
  · rfl

lemma storeBlock_fails (build : Build) (d : Device) (b : ℤ) (buf : Block) :
    (storeBlock build d b buf).disk.fails = d.disk.fails := by
  cases build with
  | objfs => exact writeBlock_fails _ _ _
  | objfsCached => exact writeBack_fails d _

lemma loadBlock_fails (build : Build) (d : Device) (b : ℤ) :
    (loadBlock build d b).1.disk.fails = d.disk.fails := by
  cases build with
  | objfs => exact readBlock_fails _ _ _
  | objfsCached =>
    simp only [loadBlock, BlockCache.readCached]
    split_ifs
    · exact (readBlock_fails _ _ _).trans (writeBack_fails d _)
    · rfl

lemma readPointers_fails (build : Build) (ptr : ℕ → ℤ) (k i : ℕ) (r : ReadState) :
    (readPointers build ptr k i r).dev.disk.fails = r.dev.disk.fails := by
  induction k generalizing i r with
  | zero => rfl
  | succ k ih =>
    unfold readPointers
    split_ifs
    · rw [ih, readPointer]
      split_ifs
      · rfl
      · exact loadBlock_fails build _ _
    · rfl

lemma readIndirects_fails (build : Build) (ind : ℕ → ℤ) (k j : ℕ) (r : ReadState) :
    (readIndirects build ind k j r).dev.disk.fails = r.dev.disk.fails := by
  induction k generalizing j r with
  | zero => rfl
  | succ k ih =>
    unfold readIndirects
    split_ifs
    · rw [ih, readPointers_fails]
      exact loadBlock_fails build _ _
    · rfl

end Transfers

/-- From `s` to `s'` no slot was taken, and transfers fail as before. -/
structure Untaken (s s' : Store) : Prop where
  live : ∀ n, s'.live n = true → s.live n = true
  fails : s'.dev.disk.fails = s.dev.disk.fails

namespace Untaken

lemma refl (s : Store) : Untaken s s := ⟨fun _ h => h, rfl⟩

lemma trans (h : Untaken s s') (h' : Untaken s' s'') : Untaken s s'' :=
  ⟨fun n hn => h.live n (h'.live n hn), h'.fails.trans h.fails⟩

/-- What keeps the inode bitmap takes no slot. -/
lemma of_inodes (hi : s'.bitMapInode = s.bitMapInode)
    (hf : s'.dev.disk.fails = s.dev.disk.fails) : Untaken s s' :=
  ⟨fun n hn => by rwa [Store.live, hi] at hn, hf⟩

lemma foldl {f : Store → ℕ → Store} (h : ∀ s l, Untaken s (f s l)) (ls : List ℕ) (s : Store) :
    Untaken s (ls.foldl f s) := by
  induction ls generalizing s with
  | nil => exact refl s
  | cons l ls ih => exact (h s l).trans (ih (f s l))

end Untaken

section Calls

lemma Untaken.release (h : Untaken s s') (build : Build) (objs : Memory) (del : ℤ) :
    Untaken s (releaseBlock build { s' with objs := objs } del) :=
  h.trans (.of_inodes rfl (congrArg Disk.fails dropBlock_disk))

lemma releaseDirect_untaken (build : Build) (n : ℕ) (s : Store) (l : ℕ) :
    Untaken s (releaseDirect build n s l) := by
  unfold releaseDirect
  split_ifs
  · exact (Untaken.refl s).release build _ _
  · exact .refl s

lemma releaseEntry_untaken (build : Build) (tem : Block) (s : Store) (al : ℕ) :
    Untaken s (releaseEntry build tem s al) := by
  unfold releaseEntry
  split_ifs
  · exact (Untaken.refl s).release build s.objs _
  · exact .refl s

lemma releaseIndirect_untaken (build : Build) (n : ℕ) (s : Store) (l : ℕ) :
    Untaken s (releaseIndirect build n s l) := by
  unfold releaseIndirect
  generalize List.range 1024 = es
  split_ifs
  · have hload : Untaken s
        { s with dev := (loadBlock build s.dev (indirect s.objs n l - writeOffset)).1 } :=
      .of_inodes rfl (loadBlock_fails build _ _)
    have hentries := hload.trans (Untaken.foldl (releaseEntry_untaken build
      (loadBlock build s.dev (indirect s.objs n l - writeOffset)).2) es _)
    exact hentries.release build _ _
  · exact .refl s

/-- Destroying a live object gives its slot back. -/
lemma destroyed_untaken (build : Build) (hlive : s.live n = true) :
    Untaken s (destroyed build s n) := by
  have hunlinked : Untaken s (unlinked s n) := by
    refine ⟨fun m hm => ?_, rfl⟩
    have hbit : (s.live m ^^ decide (n = m)) = true := (bit_xorWord _ n m).symm.trans hm
    by_cases hnm : n = m
    · exact hnm ▸ hlive
    · simpa [hnm] using hbit
  have hdirects := Untaken.foldl (releaseDirect_untaken build n) (List.range 4) (unlinked s n)
  have hindirects := Untaken.foldl (releaseIndirect_untaken build n) (List.range 4)
    ((List.range 4).foldl (releaseDirect build n) (unlinked s n))
  exact (hunlinked.trans hdirects).trans hindirects

lemma writeDirect_untaken (s : Store) (n offie size blk : ℕ) :
    Untaken s (writeDirect s n offie size blk) := by
  unfold writeDirect
  split_ifs <;> exact .of_inodes rfl rfl

lemma writeIndirect_untaken (build : Build) (s : Store) (n offie size blk : ℕ) :
    Untaken s (writeIndirect build s n offie size blk) := by
  simp only [writeIndirect, writeNewIndirect, writeOldIndirect]
  split_ifs
  · exact .of_inodes rfl (storeBlock_fails build _ _ _)
  · exact .of_inodes rfl ((storeBlock_fails build _ _ _).trans (loadBlock_fails build _ _))
  · exact .of_inodes rfl ((storeBlock_fails build _ _ _).trans (loadBlock_fails build _ _))

lemma write_untaken {objid : ℤ} {buf : Memory} {size offset : ℕ} {r : ℤ}
    (h : objstoreWrite build s objid buf size offset = some (s', r)) : Untaken s s' := by
  rcases write_cases h with ⟨-, rfl, -⟩ | ⟨n, -, -, ⟨-, rfl, -⟩ | ⟨b, -, -, rfl⟩⟩
  · exact .refl _
  · exact .of_inodes rfl rfl
  · have hplaced : Untaken s (placed build s n b (bufferPage buf size)) :=
      .of_inodes rfl (storeBlock_fails build _ _ _)
    unfold written
    split_ifs
    · exact hplaced.trans (writeDirect_untaken _ _ _ _ _)
    · exact hplaced.trans (writeIndirect_untaken build _ _ _ _ _)

lemma read_untaken {objid : ℤ} {size offset : ℕ} {x : Store × ℤ × List UInt8}
    (h : objstoreRead build s objid size offset = some x) : Untaken s x.1 := by
  simp only [objstoreRead] at h
  split_ifs at h
  · cases h
    exact .refl _
  · cases h
    exact .of_inodes rfl
      ((readIndirects_fails build _ _ _ _).trans (readPointers_fails build _ _ _ _))

lemma find_untaken (s : Store) (key : CString) : Untaken s (findObjectId s key).1 := by
  unfold findObjectId
  split <;> exact .of_inodes rfl rfl

/-- What a call does to the slots: `create_object` takes the first free one, any other call none. -/
theorem exec_slots {op : Op} {reply : Reply} (h : exec build s op = some (s', reply)) :
    Untaken s s' ∨ ∃ key n, op = .create key ∧ FirstFree s.bitMapInode slotCount n ∧
      s' = created s n key := by
  cases op with
  | create key =>
    obtain ⟨r, hcreate, -⟩ := exec_create h
    rcases create_cases hcreate with ⟨-, rfl, -⟩ | ⟨n, hn, -, rfl, -⟩
    · exact Or.inl (.refl _)
    · exact Or.inr ⟨key, n, rfl, hn, rfl⟩
  | rename key newname =>
    obtain ⟨r, hrename, -⟩ := exec_rename h
    rcases rename_cases hrename with ⟨-, rfl, -⟩ | ⟨n, -, -, rfl, -⟩
    · exact Or.inl (.refl _)
    · exact Or.inl (.of_inodes rfl rfl)
  | destroy key =>
    obtain ⟨r, hdestroy, -⟩ := exec_destroy h
    rcases destroy_cases hdestroy with ⟨-, rfl, -⟩ | ⟨n, hn, -, hs', -⟩
    · exact Or.inl (.refl _)
    · rw [hs']
      exact Or.inl (destroyed_untaken build hn.live)
  | write objid buf size offset =>
    obtain ⟨r, hwrite, -⟩ := exec_write h
    exact Or.inl (write_untaken hwrite)
  | read objid size offset =>
    rw [exec, Option.map_eq_some_iff] at h
    obtain ⟨x, hread, hx⟩ := h
    cases hx
    exact Or.inl (read_untaken hread)
  | find key =>
    cases h
    exact Or.inl (find_untaken s key)
  | stat ino =>
    rw [exec] at h
    cases hfill : fillupSizeDetails s ino with
    | none =>
      rw [hfill] at h
      cases h
      exact Or.inl (.refl _)
    | some x =>
      rw [hfill] at h
      cases h
      exact Or.inl (.refl _)

end Calls

/-- The live slots are among the records that fit, and no transfer fails. -/
structure Seated (s : Store) : Prop where
  live : ∀ n < slotCount, s.live n = true → n < tableRecords
  healthy : s.dev.disk.Healthy

section Sessions

lemma Seated.untaken (h : Seated s) (hu : Untaken s s') : Seated s' where
  live n hn hlive := h.live n hn (hu.live n hlive)
  healthy i := by
    rw [hu.fails]
    exact h.healthy i

/-- A call that finds room keeps the live slots among the records that fit. -/
lemma Seated.exec {op : Op} {reply : Reply} (h : Seated s) (hroom : Room s (.call op))
    (hexec : OsAssignments.exec build s op = some (s', reply)) : Seated s' := by
  rcases exec_slots hexec with hu | ⟨key, n, rfl, hn, rfl⟩
  · exact h.untaken hu
  · refine ⟨fun m hm hlive => ?_, h.healthy⟩
    rw [live_created, Bool.or_eq_true, decide_eq_true_eq] at hlive
    rcases hlive with hlive | rfl
    · exact h.live m hm hlive
    · exact recordFits_iff.mp ((fit_create_iff s key).mpr hroom n hn)

lemma flushCache_fails (d : Device) : (BlockCache.flushCache d).disk.fails = d.disk.fails := by
  unfold BlockCache.flushCache
  induction List.range cacheBlocks.toNat generalizing d with
  | nil => rfl
  | cons o os ih =>
    rw [List.foldl_cons, ih, BlockCache.flushSlot]
    split_ifs
    · exact writeBlock_fails _ _ _
    · rfl
    · rfl

lemma flushCache_healthy {disk : Disk} (h : disk.Healthy) (d : Device) :
    (BlockCache.flushCache { d with disk := disk }).disk.Healthy := by
  intro i
  rw [flushCache_fails]
  exact h i

/-- Both bitmaps are written last. -/
lemma objstoreDestroy_words (h : s.dev.disk.Healthy) :
    ∃ u v, WordsWritten objectBlock s.bitMapInode u inodeBitBlocks v ∧
      WordsWritten (objectBlock + 31) s.bitMapData v dataBlocks (objstoreDestroy s).disk := by
  have htable : TableWritten s s.dev.disk objectBlock (writeObjs s s.dev.disk) :=
    destroyTable_upto h objectBlock
  have hflush := flushCache_healthy htable.healthy s.dev
  have hinodes := destroyWords_upto hflush objectBlock s.bitMapInode inodeBitBlocks
  have hdata := destroyWords_upto hinodes.healthy (objectBlock + 31) s.bitMapData dataBlocks
  rw [objstoreDestroy]
  dsimp only [writeFree]
  exact ⟨_, _, hinodes, hdata⟩

/-- The inode bitmap comes back whole. -/
lemma remount_live (h : s.dev.disk.Healthy) :
    (objstoreDestroy s).disk.Healthy ∧
      ∀ n < slotCount, (objstoreInit (objstoreDestroy s)).live n = s.live n := by
  obtain ⟨u, v, hinodes, hdata⟩ := objstoreDestroy_words h
  refine ⟨hdata.healthy, fun n hn => ?_⟩
  have himage : ∀ i : ℕ, i < inodeBitBlocks →
      (objstoreDestroy s).disk.image (objectBlock + i : ℕ) = wordsBlock s.bitMapInode i := by
    intro i hi
    rw [← hinodes.words i hi]
    rw [inodeBitBlocks_eq] at hi
    exact hdata.other _ (by push_cast; omega)
  have hword : n / 32 < 1024 * inodeBitBlocks := by
    rw [slotCount_eq] at hn
    rw [inodeBitBlocks_eq]
    omega
  rw [Store.live, bit, (objstoreInit_mounted hdata.healthy).inodes]
  exact congrArg (fun w => w.getLsbD (n % 32)) (Remount.bitmapWord_wordsBlock himage hword)

lemma Seated.remount (h : Seated s) : Seated (objstoreInit (objstoreDestroy s)) := by
  obtain ⟨hhealthy, hlive⟩ := remount_live h.healthy
  refine ⟨fun n hn hn' => h.live n hn ((hlive n hn).symm.trans hn'), ?_⟩
  obtain ⟨disk, hdev, hdisk, -⟩ := (objstoreInit_mounted hhealthy).dev
  rw [hdev]
  exact hdisk

lemma Seated.step {e : Event} {reply : Reply} (h : Seated s) (hroom : Room s e)
    (hstep : TableSize.step build s e = some (s', reply)) : Seated s' := by
  cases e with
  | call op => exact h.exec hroom hstep
  | remount =>
    rw [TableSize.step, Option.some.injEq, Prod.mk.injEq] at hstep
    rw [← hstep.1]
    exact h.remount

/-- Searches look at live slots only. -/
lemma Seated.fit_iff (h : Seated s) (e : Event) : Fit s e ↔ Room s e := by
  have hsearch : ∀ n, n < slotCount → s.live n = true → RecordFits n :=
    fun n hn hlive => recordFits_iff.mpr (h.live n hn hlive)
  cases e with
  | remount => exact Iff.rfl
  | call op =>
    cases op with
    | create key => exact fit_create_iff s key
    | rename key newname => exact ⟨fun _ => trivial, fun _ n hn => hsearch n hn.1 hn.2.1⟩
    | destroy key => exact ⟨fun _ => trivial, fun _ n hn => hsearch n hn.1 hn.2.1⟩
    | find key => exact ⟨fun _ => trivial, fun _ n hn => hsearch n hn.1 hn.2.1⟩
    | write objid buf size offset => exact ⟨fun _ => trivial, fun _ n hn => hn.elim⟩
    | read objid size offset => exact ⟨fun _ => trivial, fun _ n hn => hn.elim⟩
    | stat ino => exact ⟨fun _ => trivial, fun _ n hn => hn.elim⟩

lemma empty_seated (hd : Empty d s) : Seated s where
  live n _ hlive := by
    rw [hd.live] at hlive
    contradiction
  healthy := by
    obtain ⟨disk, hdev, hblank⟩ := hd.dev
    rw [hdev]
    exact hblank.healthy

end Sessions

/-- Whatever the inode bitmap, the record that is handed out fits exactly when there is room
below the records that fit; and over every run of calls and remounts every record that is
looked at fits exactly when every new object found such room. -/
theorem table_fits_iff (build : Build) (d : Device) (hd : Blank d) (es : List Event) :
    (∀ (s : Store) (key : CString),
      Fit s (.call (.create key)) ↔ Room s (.call (.create key))) ∧
    (Along (step build) Fit (objstoreInit d) es ↔ Along (step build) Room (objstoreInit d) es) := by
  refine ⟨fit_create_iff, ?_⟩
  apply Along.congr (D := fun _ => True) (I := Seated)
  · intro s e hs _
    exact hs.fit_iff e
  · intro s e s' r hs _ hroom hstep
    exact hs.step hroom hstep
  · exact empty_seated (objstoreInit_empty hd)
  · intro e _
    trivial

/-- The first object of a new store is found again after a remount. -/
theorem table_fits_first : Along (step .objfs) Fit (objstoreInit blankDevice)
    [.call (.create keyA), .remount, .call (.find keyA)] := by
  have hempty := objstoreInit_empty blankDevice_blank
  apply (table_fits_iff .objfs blankDevice blankDevice_blank _).2.mpr
  refine ⟨Or.inl ⟨0, ?_⟩, fun _ _ _ => ⟨trivial, fun _ _ _ => ⟨trivial, fun _ _ _ => trivial⟩⟩⟩
  rw [mem_freeBits, tableRecords_eq]
  exact ⟨by norm_num, hempty.live 0⟩

/-- A store whose first 29686 words of the inode bitmap are used up. -/
def crowded : Store :=
  { objstoreInit blankDevice with
    bitMapInode := fun e => if e < 29686 then BitVec.allOnes 32 else 0#32 }

lemma crowded_bit (n : ℕ) : bit crowded.bitMapInode n = decide (n < 949952) := by
  simp only [bit, crowded]
  split_ifs with h
  · have hn : n < 949952 := by omega
    rw [BitVec.getLsbD_allOnes, decide_eq_true (mod_lt_word n), decide_eq_true hn]
  · have hn : ¬n < 949952 := by omega
    simp [hn]

lemma crowded_first : FirstFree crowded.bitMapInode slotCount 949952 := by
  rw [FirstFree, slotCount_eq]
  refine ⟨by norm_num, by simp [crowded_bit], fun k hk => ?_⟩
  simp [crowded_bit, hk]

/-- The record behind is in the mapping, but behind the bytes that are saved. -/
theorem crowded_unfit : ¬∀ (s : Store) (key : CString) (s' : Store) (n : ℕ),
    createObject s key = some (s', ((n + 2 : ℕ) : ℤ)) → RecordFits n := by
  intro h
  have hkey : KeyInObjs 949952 keyA := keyInObjs (inObjs_iff.mpr (by norm_num)) (by decide)
  have hcreate : createObject crowded keyA = _ := createObject_eq crowded_first
  rw [if_pos hkey] at hcreate
  have hfits := recordFits_iff.mp (h crowded keyA _ 949952 hcreate)
  rw [tableRecords_eq] at hfits
  omega

end OsAssignments.TableSize
