import OsAssignments.Reading
import OsAssignments.RequestedTransfers

/-!
# Failed transfers

`read_block` and `write_block` return -1 when a transfer fails. Nobody looks: neither
the cache, which marks a slot as filled or written back all the same, nor `objstore_read`
and `objstore_write`, which return the size.
-/
namespace OsAssignments.TransferErrors

open ByteMemory Bitmap ObjectTable Builds HasDisk
open BlockCache (ValidBlock readCached readCached_miss refill slot_bounds slot_split writeBack
  writeCached writeCached_eq)

variable {build : Build} {s s' : Store} {d d' : Device} {b o r : ℤ}

/-- Transfer number `i` of the disk was requested and failed. -/
def FailedAt (d : Disk) (i : ℕ) : Prop := ∃ t, d.log.reverse[i]? = some t ∧ d.Rejects i t

/-- Every transfer from the disk `d` to the disk `d'` succeeded. -/
def Served (d d' : Disk) : Prop := ∀ i, d.log.length ≤ i → ¬FailedAt d' i

/-- Clean slots hold the block they are tagged with. -/
def TagsTrue (d : Device) : Prop := ∀ o, 0 ≤ o → o < cacheBlocks → d.dirtyCache o = false →
  0 ≤ d.cacheArray o → d.cache o = d.disk.image (writeOffset + (d.cacheArray o * cacheBlocks + o))

/-- Every dirty slot of `d` is still dirty with the same block in `d'`, or was written back. -/
def DirtyKept (d d' : Device) : Prop := ∀ o, 0 ≤ o → o < cacheBlocks → d.dirtyCache o = true →
  (d'.dirtyCache o = true ∧ d'.cacheArray o = d.cacheArray o) ∨
    ∃ i, d.disk.log.length ≤ i ∧ ¬FailedAt d'.disk i ∧
      d'.disk.log.reverse[i]? = some (.write (writeOffset + d.cacheArray o * cacheBlocks + o))

/-- A call that made the store `s'` of `s` returned `r` honestly: not negative only if all
its transfers succeeded, -1 if one failed, and with the cache a failure breaks no slot. -/
structure Honest (build : Build) (s s' : Store) (r : ℤ) : Prop where
  count : 0 ≤ r → Served s.dev.disk s'.dev.disk
  failed : ¬Served s.dev.disk s'.dev.disk → r = -1
  tags : build = .objfsCached → ¬Served s.dev.disk s'.dev.disk → TagsTrue s.dev → TagsTrue s'.dev
  dirty : build = .objfsCached → ¬Served s.dev.disk s'.dev.disk → DirtyKept s.dev s'.dev

/-- The calls that transfer blocks of an object. -/
inductive IoCall where
  | read (objid : ℤ) (size offset : ℕ)
  | write (objid : ℤ) (buf : Memory) (size offset : ℕ)

def ioCall (build : Build) (s : Store) : IoCall → Option (Store × ℤ)
  | .read objid size offset => (objstoreRead build s objid size offset).map fun x => (x.1, x.2.1)
  | .write objid buf size offset => objstoreWrite build s objid buf size offset

/-- The transfers that a call requests, in order: those of its run on the mended disk. -/
def requests (build : Build) (s : Store) (call : IoCall) : List Transfer :=
  match ioCall build (mended s) call with
  | some x => x.1.dev.disk.log.reverse.drop s.dev.disk.log.length
  | none => []

/-- The disk of the store answers every transfer that the call requests. -/
def Answered (build : Build) (s : Store) (call : IoCall) : Prop :=
  ∀ x ∈ (requests build s call).zipIdx s.dev.disk.log.length, ¬s.dev.disk.Rejects x.2 x.1

instance (build : Build) (s : Store) (call : IoCall) : Decidable (Answered build s call) :=
  inferInstanceAs (Decidable (∀ _ ∈ _, _))

/-- Whether the last transfer failed. -/
lemma failedAt_last {d : Disk} {t : Transfer} {log : List Transfer} (h : d.log = t :: log) :
    FailedAt d log.length ↔ blockOffset t < 0 ∨ d.fails log.length = true := by
  rw [FailedAt, h]
  simp only [getElem_last, Option.some.injEq, exists_eq_left', Disk.Rejects]

lemma served_iff {d d' : Disk} (hf : d'.fails = d.fails) : Served d d' ↔ d.Serves d'.log := by
  constructor
  · intro h i t hi ht hreject
    refine h i hi ⟨t, ht, ?_⟩
    rwa [Disk.Rejects, hf]
  · rintro h i hi ⟨t, ht, hreject⟩
    rw [Disk.Rejects, hf] at hreject
    exact h i t hi ht hreject

lemma serves_iff_zipIdx (d : Disk) (log : List Transfer) :
    d.Serves log ↔ ∀ x ∈ (log.reverse.drop d.log.length).zipIdx d.log.length,
      ¬d.Rejects x.2 x.1 := by
  constructor
  · rintro h ⟨t, i⟩ hx
    obtain ⟨hi, ht⟩ := List.mk_mem_zipIdx_iff_le_and_getElem?_sub.mp hx
    rw [List.getElem?_drop, Nat.add_sub_cancel' hi] at ht
    exact h i t hi ht
  · intro h i t hi ht
    refine h (t, i) (List.mk_mem_zipIdx_iff_le_and_getElem?_sub.mpr ⟨hi, ?_⟩)
    rwa [List.getElem?_drop, Nat.add_sub_cancel' hi]

/-- What a call does to the store is code of the same kind, whatever its disk does. -/
lemma ioCall_tracked {call : IoCall} (h : ioCall build s call = some (s', r)) :
    ∃ op : Store → Store, Tracked op ∧ s' = op s ∧
      ioCall build (mended s) call = some (op (mended s), r) := by
  have hid : Tracked fun s : Store => s := Tracked.pure (fun _ => rfl) fun _ => rfl
  cases call with
  | read objid size offset =>
    obtain ⟨⟨s₁, r₁, bs⟩, hread, hx⟩ := Option.map_eq_some_iff.mp h
    rw [Prod.mk.injEq] at hx
    obtain ⟨rfl, rfl⟩ := hx
    unfold objstoreRead at hread
    dsimp only at hread
    split_ifs at hread with hid' hin
    · rw [Option.some.injEq, Prod.mk.injEq, Prod.mk.injEq] at hread
      refine ⟨_, hid, hread.1.symm, ?_⟩
      rw [ioCall, objstoreRead, if_pos hid', ← hread.2.1]
      rfl
    · simp only [Option.some.injEq, Prod.mk.injEq] at hread
      refine ⟨_, readEnd_tracked build (objid - 2).toNat size offset, hread.1.symm, ?_⟩
      rw [ioCall, objstoreRead, if_neg hid']
      simp only [if_pos hin, Option.map_some, ← hread.2.1]
      rfl
  | write objid buf size offset =>
    rcases write_cases h with ⟨hid', hs, hr⟩ | ⟨n, rfl, hin, ⟨hfull, hs, hr⟩ | ⟨b, hb, hr, hs⟩⟩
    · refine ⟨_, hid, hs, ?_⟩
      rw [ioCall, objstoreWrite_reserved hid', hr]
    · refine ⟨fun s => { s.markDirty n with lockData := true },
        globals_tracked (fun _ => rfl) fun _ _ => rfl, hs, ?_⟩
      rw [hr]
      exact objstoreWrite_full hfull hin
    · refine ⟨_, written_tracked build n (offset / blockSize) size b (bufferPage buf size), hs, ?_⟩
      rw [hr]
      exact objstoreWrite_found hb hin

/-- Whether all transfers of a call succeed is settled before it. -/
theorem served_iff_answered {call : IoCall} (h : ioCall build s call = some (s', r)) :
    Served s.dev.disk s'.dev.disk ↔ Answered build s call := by
  obtain ⟨op, hop, rfl, hmended⟩ := ioCall_tracked h
  calc Served s.dev.disk (op s).dev.disk
      ↔ s.dev.disk.Serves (op s).dev.disk.log := served_iff (hop.fails s)
    _ ↔ s.dev.disk.Serves (op (mended s)).dev.disk.log := hop.serves_iff s
    _ ↔ Answered build s call := by
      rw [serves_iff_zipIdx, Answered, requests, hmended]

lemma served_self (d : Disk) : Served d d := by
  rintro i hi ⟨t, ht, -⟩
  rw [List.getElem?_eq_none (by rwa [List.length_reverse])] at ht
  contradiction

/-- A call that returns -1 made no transfer. -/
lemma ioCall_minus_one {call : IoCall} (h : ioCall build s call = some (s', -1)) :
    s'.dev = s.dev := by
  cases call with
  | read objid size offset =>
    obtain ⟨⟨s₁, r, bs⟩, hread, hx⟩ := Option.map_eq_some_iff.mp h
    rw [Prod.mk.injEq] at hx
    obtain ⟨rfl, hr⟩ := hx
    rcases read_cases hread with ⟨-, hs, -, -⟩ | ⟨n, dev, -, -, -, hr'⟩
    · exact congrArg Store.dev hs
    · have hneg : r = -1 := hr
      omega
  | write objid buf size offset =>
    rcases write_cases h with ⟨-, hs, -⟩ | ⟨n, -, -, ⟨-, hs, -⟩ | ⟨b, -, hr, -⟩⟩
    · exact congrArg Store.dev hs
    · rw [hs]
      rfl
    · omega

/-- A call is honest exactly when the disk answers every block transfer that it requests. -/
theorem honest_iff (build : Build) (s s' : Store) (call : IoCall) (r : ℤ)
    (h : ioCall build s call = some (s', r)) :
    Honest build s s' r ↔ Answered build s call := by
  rw [← served_iff_answered h]
  constructor
  · intro hhonest
    by_contra hfail
    have hr := hhonest.failed hfail
    rw [hr] at h
    rw [ioCall_minus_one h] at hfail
    exact hfail (served_self _)
  · intro hserved
    exact ⟨fun _ => hserved, fun hfail => absurd hserved hfail, fun _ hfail => absurd hserved hfail,
      fun _ hfail => absurd hserved hfail⟩

section Slots

/-- A slot is tagged after its fill whether the read succeeded or not: it holds its block
only if it did, or if the old contents happen to be the same. -/
theorem fill_tags_iff (h : TagsTrue d) (hb : ValidBlock b)
    (hmiss : d.cacheArray (b % cacheBlocks) ≠ b / cacheBlocks) :
    TagsTrue (readCached d b).1 ↔
      (writeBack d (b % cacheBlocks)).disk.refuses (writeOffset + b) = false ∨
        d.cache (b % cacheBlocks) =
          (writeBack d (b % cacheBlocks)).disk.image (writeOffset + b) := by
  obtain ⟨hlo, hhi⟩ := slot_bounds b
  have htag := (BlockCache.slot_tag hb).1
  rw [readCached_miss hb hmiss]
  constructor
  · intro htrue
    have hslot := htrue (b % cacheBlocks) hlo hhi (by simp [refill]) (by simpa [refill] using htag)
    simp only [refill, Function.update_self, slot_split, readBlock_image] at hslot
    unfold readBlock at hslot
    split_ifs at hslot with hrefused
    · exact Or.inr hslot
    · exact Or.inl (by simpa using hrefused)
  · intro hfilled o hlo' hhi' hclean htag'
    by_cases ho : o = b % cacheBlocks
    · subst ho
      simp only [refill, Function.update_self, slot_split, readBlock_image]
      unfold readBlock
      split_ifs with hrefused
      · exact hfilled.resolve_left (by simp [hrefused])
      · rfl
    · simp only [refill, Function.update_of_ne ho, readBlock_image] at hclean htag' ⊢
      have hplace : (d.cacheArray o * cacheBlocks + o) % cacheBlocks ≠ b % cacheBlocks := by
        rw [mul_comm, Int.mul_add_emod_self_left, Int.emod_eq_of_lt hlo' hhi']
        exact ho
      rw [BlockCache.writeBack_image_of_slot_ne hlo hhi hplace]
      exact h o hlo' hhi' hclean htag'

/-- Dirty data make way for another block whether they were written back or not. -/
theorem eviction_kept_iff (hb : ValidBlock b) (buf : Block) :
    DirtyKept d (writeCached d b buf) ↔
      (d.dirtyCache (b % cacheBlocks) = true → d.cacheArray (b % cacheBlocks) ≠ b / cacheBlocks →
        d.disk.refuses (writeOffset + d.cacheArray (b % cacheBlocks) *
          cacheBlocks + b % cacheBlocks) =
          false) := by
  obtain ⟨hlo, hhi⟩ := slot_bounds b
  have hlog : d.dirtyCache (b % cacheBlocks) = true →
      (writeBack d (b % cacheBlocks)).disk.log = .write (writeOffset +
        d.cacheArray (b % cacheBlocks) * cacheBlocks + b % cacheBlocks) :: d.disk.log ∧
      (writeBack d (b % cacheBlocks)).disk.fails = d.disk.fails := by
    intro hd
    rw [writeBack, if_pos hd]
    exact ⟨writeBlock_log _ _ _, writeBlock_fails _ _ _⟩
  rw [writeCached_eq hb]
  constructor
  · intro hkept hd hne
    obtain ⟨hdisk, hfails⟩ := hlog hd
    rcases hkept _ hlo hhi hd with ⟨-, htag⟩ | ⟨i, hi, hserved, hwrite⟩
    · exact absurd (htag.symm.trans (by simp [refill])) hne
    · have hlast : i = d.disk.log.length := by
        have hlt := (List.getElem?_eq_some_iff.mp hwrite).1
        rw [List.length_reverse] at hlt
        simp only [refill, hdisk, List.length_cons] at hlt
        omega
      rw [hlast] at hserved
      rw [refill, failedAt_last hdisk, hfails, not_or, Bool.not_eq_true] at hserved
      simp only [blockOffset] at hserved
      simp [Disk.refuses, hserved.1, hserved.2]
  · intro hback o hlo' hhi' hd
    by_cases ho : o = b % cacheBlocks
    · subst ho
      by_cases htag : d.cacheArray (b % cacheBlocks) = b / cacheBlocks
      · exact Or.inl ⟨by simp [refill], by simp [refill, htag]⟩
      · obtain ⟨hdisk, hfails⟩ := hlog hd
        have hserved := hback hd htag
        rw [Disk.refuses, Bool.or_eq_false_iff, decide_eq_false_iff_not] at hserved
        refine Or.inr ⟨d.disk.log.length, le_rfl, ?_, ?_⟩
        · rw [refill, failedAt_last hdisk, hfails, not_or, Bool.not_eq_true]
          exact hserved
        · simp only [refill, hdisk]
          exact getElem_last _ _
    · exact Or.inl ⟨by simpa [refill, ho] using hd, by simp [refill, ho]⟩

end Slots

section Examples

/-- A first object on a disk whose transfers all fail. -/
def brokenDisk : Store :=
  { created (objstoreInit blankDevice) 0 keyA with
    dev := { blankDevice with disk := { blankDevice.disk with fails := fun _ => true } } }

/-- The write to the first block of that object. -/
lemma broken_write : ioCall .objfs brokenDisk (.write ((0 : ℕ) + 2) (fun _ => 1) blockSize 0) =
    some (written .objfs brokenDisk 0 0 blockSize 0 (bufferPage (fun _ => 1) blockSize),
      (blockSize : ℤ)) := by
  have hempty := objstoreInit_empty blankDevice_blank
  have hfirst : FirstFree (created (objstoreInit blankDevice) 0 keyA).bitMapData dataBits 0 :=
    (hempty.picks 0).data
  have hlock : (created (objstoreInit blankDevice) 0 keyA).lockData = false := hempty.lock
  have hin : WriteInBounds brokenDisk 0 (0 / blockSize) blockSize :=
    ⟨le_rfl, by decide, by decide, hlock⟩
  have hbits : FirstFree brokenDisk.bitMapData dataBits 0 := hfirst
  have hwrite : objstoreWrite .objfs brokenDisk ((0 : ℕ) + 2) (fun _ => 1) blockSize 0 = _ :=
    objstoreWrite_found hbits hin
  rwa [Nat.zero_div] at hwrite

lemma broken_dev : (written .objfs brokenDisk 0 0 blockSize 0
    (bufferPage (fun _ => 1) blockSize)).dev =
      storeBlock .objfs brokenDisk.dev (0 : ℕ) (bufferPage (fun _ => 1) blockSize) := by
  rw [written, if_pos (by norm_num), writeDirect]
  split_ifs <;> rfl

theorem honest_iff_broken :
    Honest .objfs brokenDisk
        (written .objfs brokenDisk 0 0 blockSize 0 (bufferPage (fun _ => 1) blockSize)) blockSize ↔
      Answered .objfs brokenDisk (.write ((0 : ℕ) + 2) (fun _ => 1) blockSize 0) :=
  honest_iff .objfs brokenDisk _ (.write ((0 : ℕ) + 2) (fun _ => 1) blockSize 0) _ broken_write

/-- The write fails and returns the size. -/
theorem failure_reported_as_success : ¬∀ (s s' : Store) (call : IoCall) (r : ℤ),
    ioCall .objfs s call = some (s', r) → Honest .objfs s s' r := by
  intro hclaim
  have hserved := (hclaim _ _ _ _ broken_write).count (Int.natCast_nonneg _)
  have hlog : (storeBlock .objfs brokenDisk.dev (0 : ℕ)
      (bufferPage (fun _ => 1) blockSize)).disk.log = .write (writeOffset + (0 : ℕ)) :: [] :=
    writeBlock_log _ _ _
  rw [broken_dev] at hserved
  refine hserved 0 le_rfl ((failedAt_last hlog).mpr (Or.inr ?_))
  exact congrFun (writeBlock_fails _ _ _) 0

end Examples

end OsAssignments.TransferErrors
