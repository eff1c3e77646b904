import OsAssignments.Touching

/-!
# Unmount and mount

An unmount writes the table blocks that are marked. A call marks block `n / 46` for
record `n`, as if 46 records made a block; a block has 4048 bytes and a record 96,
so that from record 42 on the marks fall behind the blocks. A store comes back
from the disk when the blocks of all touched records are marked nevertheless.
-/
namespace OsAssignments.Remount

open ByteMemory Bitmap ObjectTable Builds
open BlockCache (ValidBlock)
open Machine (Along)

variable {build : Build} {s s' : Store} {n : ℕ} {ns : List ℕ} {key : CString} {d : Device}

section Touched

/-- The slot of the record a call touches, found as the call itself finds it. -/
def touched (s : Store) : Op → Option ℕ
  | .create _ => (scan s.bitMapInode freeTest maxInodes 0 0).map Found.cnt
  | .rename key _ => (searchKey s key).map Found.cnt
  | .destroy key => (searchKey s key).map Found.cnt
  | .write objid _ _ _ => if objid < 2 then none else some (objid - 2).toNat
  | _ => none

/-- The slots touched in a run. -/
def touchedAll (build : Build) : Store → List Op → List ℕ
  | _, [] => []
  | s, op :: ops => (touched s op).toList ++
      match exec build s op with
      | some (s', _) => touchedAll build s' ops
      | none => []

/-- The table blocks with the first and the last byte of each touched record are
blocks that some touched record marks. -/
def Covered (ns : List ℕ) : Prop :=
  ∀ n ∈ ns, (∃ m ∈ ns, m / 46 = 96 * n / 4048) ∧ ∃ m ∈ ns, m / 46 = (96 * n + 95) / 4048

instance (ns : List ℕ) : Decidable (Covered ns) :=
  inferInstanceAs (Decidable (∀ n ∈ ns, _ ∧ _))

/-- Every byte of a touched record lies in a block that is marked. -/
lemma Covered.byte (h : Covered ns) (hn : n ∈ ns) {a : ℕ} (ha : 96 * n ≤ a)
    (ha' : a < 96 * n + 96) : ∃ m ∈ ns, m / 46 = a / 4048 := by
  obtain ⟨⟨m, hm, hfirst⟩, m', hm', hlast⟩ := h n hn
  by_cases hsame : a / 4048 = 96 * n / 4048
  · exact ⟨m, hm, hfirst.trans hsame.symm⟩
  · exact ⟨m', hm', hlast.trans (by omega)⟩

/-- The calls of the runs: an unmapped block of a live object is written. -/
def Call (build : Build) (s : Store) : Op → Prop
  | .create key => Fits key
  | .rename _ newname => Fits newname
  | .destroy _ => True
  | .write objid _ _ offset => ∃ n : ℕ, objid = n + 2 ∧ s.live n = true ∧
      offset / blockSize < 4100 ∧ value build s (.ofBlock n (offset / blockSize)) = 0
  | _ => False

/-- A write that needs a new indirect block does not find exactly one block free. -/
def Spare (s : Store) : Op → Prop
  | .write objid _ _ offset => NeedsTable s (objid - 2).toNat (offset / blockSize) →
      (freeBits s.bitMapData dataBits).card ≠ 1
  | _ => True

/-- What a call does to the table and the marks. -/
inductive Effect (s s' : Store) (op : Op) : Prop
  | idle (h : touched s op = none) (hs : s' = s)
  | touches (n : ℕ) (h : touched s op = some n) (hn : n < slotCount) (ht : Touches s s' n)

lemma write_effect {objid : ℤ} {buf : Memory} {size offset : ℕ} {r : ℤ} (h : StoreOk build True s)
    (hcall : Call build s (.write objid buf size offset))
    (hspare : Spare s (.write objid buf size offset))
    (hw : objstoreWrite build s objid buf size offset = some (s', r)) :
    StoreOk build True s' ∧ Effect s s' (.write objid buf size offset) := by
  obtain ⟨n, rfl, hlive, hk, hv⟩ := hcall
  have hn : ((n : ℤ) + 2 - 2).toNat = n := by omega
  have hid : ¬((n : ℤ) + 2 < 2) := by omega
  have hin := objstoreWrite_inBounds hw
  have htouched : touched s (.write (n + 2) buf size offset) = some n := by
    rw [touched, if_neg hid, hn]
  rw [Spare, hn] at hspare
  rcases (freeBits s.bitMapData dataBits).eq_empty_or_nonempty with hfull | hfree
  · -- without a free block only the mark and the lock change
    rw [objstoreWrite_full hfull hin] at hw
    cases hw
    exact ⟨⟨h.device, h.accounts, h.clean, h.ids, h.slots⟩,
      .touches n htouched (h.slots n hlive) ⟨.refl _ _, rfl, fun _ _ => rfl⟩⟩
  · have hcost : writeCost s n (offset / blockSize) ≤ (freeBits s.bitMapData dataBits).card := by
      have hpos := Finset.card_pos.mpr hfree
      unfold writeCost
      split_ifs with hneed
      · have := hspare hneed
        omega
      · exact hpos
    obtain ⟨b, t, hp⟩ := exists_picks hcost
    rw [objstoreWrite_hung h hin hv hp, Option.some.injEq, Prod.mk.injEq] at hw
    rw [← hw.1]
    exact ⟨(hung_spec h hlive hk hv hp).1,
      .touches n htouched (h.slots n hlive) (hung_touches h hk hp)⟩

lemma searchKey_touched (hn : s.KeyAt key n) : (searchKey s key).map Found.cnt = some n := by
  rw [searchKey_some hn]
  rfl

/-- One call of a run. -/
theorem exec_effect {op : Op} {reply : Reply} (h : StoreOk build True s)
    (hcall : Call build s op) (hspare : Spare s op) (hexec : exec build s op = some (s', reply)) :
    StoreOk build True s' ∧ Effect s s' op := by
  cases op with
  | create key =>
    obtain ⟨r, hcreate, -⟩ := exec_create hexec
    rcases create_cases hcreate with ⟨hfull, rfl, -⟩ | ⟨n, hn, -, rfl, -⟩
    · exact ⟨h, .idle (by rw [touched, scan_full maxInodes hfull]; rfl) rfl⟩
    · refine ⟨created_ok h hn.1 hcall, .touches n ?_ hn.1 (created_touches s hcall)⟩
      rw [touched, scan_free maxInodes hn]
      rfl
  | rename key newname =>
    obtain ⟨r, hrename, -⟩ := exec_rename hexec
    rcases rename_cases hrename with ⟨hnone, rfl, -⟩ | ⟨n, hn, -, rfl, -⟩
    · exact ⟨h, .idle (by rw [touched, searchKey_none hnone]; rfl) rfl⟩
    · exact ⟨renamed_ok h hcall, .touches n (searchKey_touched hn) hn.1 (renamed_touches s hcall)⟩
  | destroy key =>
    obtain ⟨r, hdestroy, -⟩ := exec_destroy hexec
    rcases destroy_cases hdestroy with ⟨hnone, rfl, -⟩ | ⟨n, hn, -, hs', -⟩
    · exact ⟨h, .idle (by rw [touched, searchKey_none hnone]; rfl) rfl⟩
    · rw [hs']
      exact ⟨destroyed_ok h hn.live,
        .touches n (searchKey_touched hn) hn.1 (destroyed_touches h hn.live)⟩
  | write objid buf size offset =>
    obtain ⟨r, hwrite, -⟩ := exec_write hexec
    exact write_effect h hcall hspare hwrite
  | read objid size offset => exact hcall.elim
  | find key => exact hcall.elim
  | stat ino => exact hcall.elim

end Touched

section Runs

/-- Every byte that was ever changed lies in a touched record, and touched records are
marked in the way of the source. The table on the disk is still empty. -/
structure Kept (build : Build) (s : Store) (ns : List ℕ) : Prop where
  ok : StoreOk build True s
  low : ∀ i : ℕ, i < objectBlock → s.dev.disk.image i = fun _ => 0
  objs : ∀ a, s.objs a ≠ 0 → ∃ n ∈ ns, 96 * n ≤ a ∧ a < 96 * n + 96
  marks : ∀ n ∈ ns, s.dBitMap (n / 46) = true
  slots : ∀ n ∈ ns, n < slotCount

lemma empty_kept (build : Build) (hd : Empty d s) : Kept build s [] := by
  obtain ⟨disk, hdev, hblank⟩ := hd.dev
  refine ⟨hd.ok, fun i _ => ?_, fun a ha => ?_, fun n hn => absurd hn List.not_mem_nil,
    fun n hn => absurd hn List.not_mem_nil⟩
  · rw [hdev]
    exact hblank.zero i
  · rw [hd.objs] at ha
    exact absurd rfl ha

lemma Kept.step {op : Op} {reply : Reply} (h : Kept build s ns) (hcall : Call build s op)
    (hspare : Spare s op) (hexec : exec build s op = some (s', reply)) :
    Kept build s' (ns ++ (touched s op).toList) := by
  obtain ⟨hok, heffect⟩ := exec_effect h.ok hcall hspare hexec
  cases heffect with
  | idle hnone hs =>
    rw [hnone, Option.toList_none, List.append_nil, hs]
    exact h
  | touches n hsome hn ht =>
    obtain ⟨hob, -, -, hw⟩ := layout
    rw [hsome, Option.toList_some]
    refine ⟨hok, fun i hi => (ht.low i (by omega)).trans (h.low i hi),
    fun a ha => ?_, fun m hm => ?_,
      fun m hm => ?_⟩
    · by_cases hin : 96 * n ≤ a ∧ a < 96 * n + 96
      · exact ⟨n, by simp, hin⟩
      · rw [ht.objs a (by omega)] at ha
        obtain ⟨m, hm, hb⟩ := h.objs a ha
        exact ⟨m, by simp [hm], hb⟩
    · rw [ht.dirty, Function.update_apply]
      split_ifs with hmn
      · rfl
      · rw [List.mem_append, List.mem_singleton] at hm
        rcases hm with hm | rfl
        · exact h.marks m hm
        · exact absurd rfl hmn
    · rw [List.mem_append, List.mem_singleton] at hm
      rcases hm with hm | rfl
      · exact h.slots m hm
      · exact hn

/-- The condition on the steps of a run. -/
def Sound (build : Build) (s : Store) (op : Op) : Prop := Call build s op ∧ Spare s op

lemma Kept.run {ops : List Op} {rs : List Reply} (h : Kept build s ns)
    (hops : Along (exec build) (Sound build) s ops) (hrun : execAll build s ops = some (s', rs)) :
    Kept build s' (ns ++ touchedAll build s ops) := by
  induction ops generalizing s ns rs with
  | nil =>
    cases hrun
    rw [touchedAll, List.append_nil]
    exact h
  | cons op ops ih =>
    obtain ⟨s₁, r, rs', hstep, hrun', rfl⟩ := Machine.run_cons.mp hrun
    have hkept := ih (h.step hops.1.1 hops.1.2 hstep) (hops.2 s₁ r hstep) hrun'
    rw [touchedAll, hstep, ← List.append_assoc]
    exact hkept

lemma touchedAll_append {ops ops' : List Op} {rs : List Reply}
    (hrun : execAll build s ops = some (s', rs)) :
    touchedAll build s (ops ++ ops') = touchedAll build s ops ++ touchedAll build s' ops' := by
  induction ops generalizing s rs with
  | nil =>
    cases hrun
    rfl
  | cons op ops ih =>
    obtain ⟨s₁, r, rs', hstep, hrun', rfl⟩ := Machine.run_cons.mp hrun
    simp only [List.cons_append, touchedAll, hstep, ih hrun', List.append_assoc]

end Runs

section Image

/-- A word of a bitmap survives the way to its block and back. -/
lemma blockWord_wordsBlock (w : Words) (i : ℕ) {e : ℕ} (he : e < 1024) :
    blockWord (wordsBlock w i) e = w ((1024 * i + e : ℕ) : ℤ) := by
  have hbyte : ∀ x < 4, bytes (wordsBlock w i) (4 * e + x) =
      byteAt (w ((1024 * i + e : ℕ) : ℤ)).toNat x := by
    intro x hx
    have hlt : 4 * e + x < blockSize := show 4 * e + x < 4096 by omega
    have hdiv : (4 * e + x) / 4 = e := by omega
    have hmod : (4 * e + x) % 4 = x := by omega
    simp only [bytes, dif_pos hlt, wordsBlock, hdiv, hmod]
  have hload := loadLE_of_byteAt hbyte
  have hlt := (w ((1024 * i + e : ℕ) : ℤ)).isLt
  have hword : loadLE (bytes (wordsBlock w i)) (4 * e) 4 = (w ((1024 * i + e : ℕ) : ℤ)).toNat := by
    rw [Int.emod_eq_of_lt (by omega) (by omega)] at hload
    exact_mod_cast hload
  rw [blockWord, hword, BitVec.ofNat_toNat, BitVec.setWidth_eq]

lemma bitmapWord_wordsBlock {image : ℤ → Block} {start k : ℕ} {w : Words}
    (h : ∀ i : ℕ, i < k → image (start + i : ℕ) = wordsBlock w i) {i : ℕ} (hi : i < 1024 * k) :
    bitmapWord image start k i = w i := by
  have himage := h (i / 1024) (by omega)
  rw [bitmapWord, if_pos (by omega), show (i : ℤ) / 1024 + start = ((start + i / 1024 : ℕ) : ℤ) by
    push_cast; ring, himage, show ((i : ℤ) % 1024).toNat = i % 1024 by omega,
    blockWord_wordsBlock w _ (Nat.mod_lt i (by norm_num)), Nat.div_add_mod]

variable {dev : Device}

/-- Bytes that were changed lie in marked blocks. -/
lemma Kept.marked (h : Kept build s ns) (hcov : Covered ns) {a : ℕ} (ha : s.objs a ≠ 0) :
    a / 4048 < objectBlock ∧ s.dBitMap (a / 4048) = true := by
  obtain ⟨n, hn, hlo, hhi⟩ := h.objs a ha
  obtain ⟨m, hm, hblock⟩ := hcov.byte hn hlo hhi
  have hslot := h.slots m hm
  rw [slotCount_eq] at hslot
  rw [← hblock]
  refine ⟨?_, h.marks m hm⟩
  rw [objectBlock_eq]
  omega

/-- The table comes back whole when the marks cover it. -/
lemma remount_objs (h : Kept build s ns) (hcov : Covered ns) (hu : Unmounted build s dev) :
    tableByte dev.disk.image objectBlock = s.objs := by
  funext a
  have hmod : a % 4048 < 4048 := Nat.mod_lt a (by norm_num)
  unfold tableByte
  split_ifs with ha
  · rw [hu.table (a / 4048) (by omega)]
    have hlt : a % 4048 < blockSize := show a % 4048 < 4096 by omega
    split_ifs with hd
    · have hplace : a / 4048 * 4048 + a % 4048 = a := by omega
      have hin : (⟨a % 4048, hlt⟩ : Fin blockSize) < 4048 := hmod
      simp only [bytes, dif_pos hlt, tablePage, if_pos hin, hplace]
    · rw [h.low _ (by omega), bytes_zero]
      by_contra hne
      exact hd (h.marked hcov (Ne.symm hne)).2
  · by_contra hne
    have := (h.marked hcov (Ne.symm hne)).1
    omega

end Image

section Identity

/-- The store `s'` is the store `s` again: the bitmaps, the records of the live
objects, what searches find, and what every reference leads to. -/
structure SameStore (build : Build) (s s' : Store) : Prop where
  inodes : ∀ i : ℕ, i < maxInodes → s'.bitMapInode i = s.bitMapInode i
  data : ∀ i : ℕ, i < dataWords → s'.bitMapData i = s.bitMapData i
  records : ∀ n, s.live n = true → objId s'.objs n = objId s.objs n ∧
    objSize s'.objs n = objSize s.objs n ∧
    (∀ i < 48, s'.objs (keyAddr n + i) = s.objs (keyAddr n + i)) ∧
    ∀ j < 8, pointer s'.objs n j = pointer s.objs n j
  finds : ∀ key, (findObjectId s' key).2 = (findObjectId s key).2
  lookups : ∀ r : Ref, s.live r.slot = true → value build s' r = value build s r ∧
    (value build s r ≠ 0 →
      view build s' (value build s r - writeOffset) = view build s (value build s r - writeOffset))

/-- Searches look at the table and at the words of the bitmap. -/
lemma findObjectId_congr (hobjs : s'.objs = s.objs)
    (hbits : ∀ i : ℕ, i < maxInodes → s'.bitMapInode i = s.bitMapInode i) (key : CString) :
    (findObjectId s' key).2 = (findObjectId s key).2 := by
  have hnamed : ∀ n < slotCount, s'.named key n = s.named key n := by
    intro n hn
    have hword : n / 32 < maxInodes := by
      rw [slotCount_eq] at hn
      rw [maxInodes_eq]
      omega
    rw [Store.named, Store.named, Store.live, Store.live, bit, bit, hbits _ hword, hobjs]
  rcases s.keyAt_or_noKey key with ⟨n, hn⟩ | hnone
  · have hn' : s'.KeyAt key n := ⟨hn.1, (hnamed n hn.1).trans hn.2.1, fun k hk =>
      (hnamed k (hk.trans hn.1)).trans (hn.2.2 k hk)⟩
    rw [findObjectId_some hn, findObjectId_some hn', hobjs]
  · have hnone' : s'.NoKey key := fun n hn => (hnamed n hn).trans (hnone n hn)
    rw [findObjectId_none hnone, findObjectId_none hnone']

lemma sameStore_of_unmounted (h : Kept build s ns) (hcov : Covered ns) {dev : Device}
    (hu : Unmounted build s dev) (hm : Mounted dev s') : SameStore build s s' := by
  have hobjs : s'.objs = s.objs := hm.objs.trans (remount_objs h hcov hu)
  have hinodes : ∀ i : ℕ, i < maxInodes → s'.bitMapInode i = s.bitMapInode i := fun i hi => by
    rw [hm.inodes, bitmapWord_wordsBlock hu.inodes]
    rw [inodeBitBlocks_eq]
    rw [maxInodes_eq] at hi
    omega
  have hdata : ∀ i : ℕ, i < dataWords → s'.bitMapData i = s.bitMapData i := fun i hi => by
    rw [hm.data, bitmapWord_wordsBlock hu.data]
    rw [dataBlocks_eq]
    rw [dataWords_eq] at hi
    omega
  have hview : ∀ b, ValidBlock b → view build s' b = view build s b := by
    intro b hb
    obtain ⟨disk, hdev, -, himage⟩ := hm.dev
    rw [view, hdev, init_view hb]
    exact (congrFun himage _).trans (hu.blocks b hb)
  have hval : value build s' = value build s :=
    value_congr (fun _ _ _ => by rw [hobjs]) fun n l hl hz => hview _ (h.ok.indirect_valid hl hz)
  refine ⟨hinodes, hdata, fun n _ => ?_, findObjectId_congr hobjs hinodes, fun r _ => ?_⟩
  · rw [hobjs]
    exact ⟨rfl, rfl, fun _ _ => rfl, fun _ _ => rfl⟩
  · exact ⟨by rw [hval], fun hne => hview _ (h.ok.valid hne)⟩

/-- Mounting again gives the store back, and every block of the table in which a
call of the run changed a byte is marked. -/
def Returns (build : Build) (d : Device) (ops : List Op) : Prop :=
  ∀ s rs, execAll build (objstoreInit d) ops = some (s, rs) →
    SameStore build s (objstoreInit (objstoreDestroy s)) ∧
    ∀ pre op post s₁ rs₁ s₂ r, ops = pre ++ op :: post →
      execAll build (objstoreInit d) pre = some (s₁, rs₁) → exec build s₁ op = some (s₂, r) →
      ∀ a, s₂.objs a ≠ s₁.objs a → s.dBitMap (a / 4048) = true

/-- A store whose marks cover its touched records comes back from an unmount. -/
theorem remount_returns (build : Build) (d : Device) (hd : Blank d) (ops : List Op)
    (hops : Along (exec build) (Sound build) (objstoreInit d) ops)
    (hcov : Covered (touchedAll build (objstoreInit d) ops)) : Returns build d ops := by
  intro s rs hrun
  have hstart := empty_kept build (objstoreInit_empty hd)
  have hkept := hstart.run hops hrun
  rw [List.nil_append] at hkept
  have hu := objstoreDestroy_unmounted hkept.ok.device
  refine ⟨sameStore_of_unmounted hkept hcov hu (objstoreInit_mounted hu.healthy), ?_⟩
  rintro pre op post s₁ rs₁ s₂ r rfl hpre hexec a ha
  obtain ⟨halong, hrest⟩ := Machine.along_append.mp hops
  have hsound := (hrest s₁ rs₁ hpre).1
  have hmid := hstart.run halong hpre
  obtain ⟨-, heffect⟩ := exec_effect hmid.ok hsound.1 hsound.2 hexec
  cases heffect with
  | idle hnone hs =>
    rw [hs] at ha
    exact absurd rfl ha
  | touches n hsome hn ht =>
    have hin : 96 * n ≤ a ∧ a < 96 * n + 96 := by
      by_contra hout
      exact ha (ht.objs a (by omega))
    have hmem : n ∈ touchedAll build (objstoreInit d) (pre ++ op :: post) := by
      rw [touchedAll_append hpre, touchedAll, hsome]
      simp
    obtain ⟨m, hm, hblock⟩ := hcov.byte hmem hin.1 hin.2
    rw [← hblock]
    exact hkept.marks m hm

/-- The first calls of a store: an object with one block. -/
def firstCalls (k : ℕ) : List Op :=
  [.create keyA, .write ((0 : ℕ) + 2) (fun _ => 1) blockSize (blockSize * k)]

lemma firstCalls_trace {k : ℕ} (hk : k < 4100) : ∃ s,
    Machine.Trace (exec .objfs) (Sound .objfs) (objstoreInit blankDevice) (firstCalls k) s
        [{ ret := 2 }, { ret := blockSize }] ∧
      touchedAll .objfs (objstoreInit blankDevice) (firstCalls k) = [0, 0] := by
  have hempty := objstoreInit_empty blankDevice_blank
  have hfits : Fits keyA := by decide
  have hdiv : blockSize * k / blockSize = k := Nat.mul_div_cancel_left k (by norm_num)
  have hcreate : exec .objfs (objstoreInit blankDevice) (.create keyA) = _ :=
    hempty.create (by decide)
  have hwrite := hempty.write .objfs hfits hk fun _ => 1
  have hcall : Call .objfs (created (objstoreInit blankDevice) 0 keyA)
      (.write ((0 : ℕ) + 2) (fun _ => 1) blockSize (blockSize * k)) :=
    ⟨0, rfl, by simp [live_created], by rwa [hdiv], hempty.createdValue hfits _⟩
  have hspare : Spare (created (objstoreInit blankDevice) 0 keyA)
      (.write ((0 : ℕ) + 2) (fun _ => 1) blockSize (blockSize * k)) :=
    fun _ => (Nat.lt_of_succ_le hempty.createdRoom).ne'
  refine ⟨_, .cons ⟨hfits, trivial⟩ hcreate (.cons ⟨hcall, hspare⟩ hwrite (.nil _)), ?_⟩
  have hslot : touched (objstoreInit blankDevice) (.create keyA) = some 0 := by
    rw [touched, scan_free maxInodes hempty.firstSlot]
    rfl
  have hobject : touched (created (objstoreInit blankDevice) 0 keyA)
      (.write ((0 : ℕ) + 2) (fun _ => 1) blockSize (blockSize * k)) = some 0 := rfl
  simp only [firstCalls, touchedAll, hcreate, hslot, hwrite, hobject, Option.toList_some,
    List.singleton_append]

theorem remount_returns_first : Returns .objfs blankDevice (firstCalls 4) := by
  obtain ⟨s, htrace, htouched⟩ := firstCalls_trace (k := 4) (by norm_num)
  refine remount_returns .objfs blankDevice blankDevice_blank _ htrace.along ?_
  rw [htouched]
  decide

end Identity

section Straddling

/-- The key of `i + 1` letters. -/
def keyOf (i : ℕ) : CString := ⟨List.replicate (i + 1) 97, fun b hb => by
  rw [List.eq_of_mem_replicate hb]
  decide⟩

lemma keyOf_length (i : ℕ) : (keyOf i).length = i + 1 := List.length_replicate

/-- `m` objects are created from slot `j` on. -/
def creates (j m : ℕ) : List Op := (List.range' j m).map fun i => .create (keyOf i)

/-- The first `k` slots are live, and only the first table block is marked. -/
structure Filling (s : Store) (k : ℕ) : Prop where
  live : ∀ n, s.live n = decide (n < k)
  dirty : ∀ i, i ≠ 0 → s.dBitMap i = false
  last : 0 < k → s.objs (keyAddr (k - 1)) = 97

lemma Filling.create {j : ℕ} (h : Filling s j) (hj : j < 46) :
    Fits (keyOf j) ∧
      exec .objfs s (.create (keyOf j)) = some (created s j (keyOf j), { ret := (j + 2 : ℕ) }) ∧
      Filling (created s j (keyOf j)) (j + 1) := by
  have hfits : Fits (keyOf j) := by
    rw [Fits, keyOf_length]
    omega
  have hfirst : FirstFree s.bitMapInode slotCount j := by
    refine ⟨by rw [slotCount_eq]; omega, ?_, fun k hk => ?_⟩
    · have hdead := h.live j
      unfold Store.live at hdead
      simp [hdead]
    · have hlive := h.live k
      unfold Store.live at hlive
      simp [hlive, hk]
  refine ⟨hfits, ?_, fun n => ?_, fun i hi => ?_, fun _ => ?_⟩
  · rw [exec, createObject_eq hfirst, if_pos (keyInObjs (inObjs_iff.mpr (by omega)) hfits),
      Option.map_some]
  · rw [live_created, h.live, ← Bool.decide_or, decide_eq_decide]
    omega
  · show Function.update s.dBitMap (j / 46) true i = false
    rw [Function.update_of_ne (by omega)]
    exact h.dirty i hi
  · have hmem : keyAddr j ≤ keyAddr j ∧ keyAddr j < keyAddr j + ((keyOf j).length + 1) := by omega
    show strcpy _ (keyAddr j) (keyOf j) (keyAddr j) = 97
    rw [strcpy, storeBytes_of_mem hmem, Nat.sub_self]
    rfl

lemma Filling.creates {j m : ℕ} (h : Filling s j) (hm : j + m ≤ 46) :
    ∃ s' rs, Machine.Trace (exec .objfs) (Sound .objfs) s (creates j m) s' rs ∧
      Filling s' (j + m) := by
  induction m generalizing s j with
  | zero => exact ⟨s, [], .nil s, h⟩
  | succ m ih =>
    obtain ⟨hfits, hcreate, hnext⟩ := h.create (by omega)
    obtain ⟨s', rs, htrace, hfill⟩ := ih hnext (by omega)
    refine ⟨s', _, .cons ⟨hfits, trivial⟩ hcreate htrace, ?_⟩
    rwa [Nat.add_right_comm] at hfill

/-- The key of record 42 begins the second block of the table, which is not marked. -/
theorem straddling_record_lost : ¬∀ ops, Along (exec .objfs) (Call .objfs)
    (objstoreInit blankDevice) ops → Returns .objfs blankDevice ops := by
  intro hclaim
  have hempty := objstoreInit_empty blankDevice_blank
  have hstart : Filling (objstoreInit blankDevice) 0 :=
    ⟨fun n => by rw [hempty.live, decide_eq_false (Nat.not_lt_zero n)],
      fun i _ => by rw [hempty.dirty], fun h0 => absurd h0 (lt_irrefl 0)⟩
  obtain ⟨s, rs, htrace, hfill⟩ := hstart.creates (m := 43) (by norm_num)
  have hreturns := hclaim _ (htrace.along.mono fun _ _ h => h.1) s rs htrace.run
  have hkept := (empty_kept .objfs hempty).run htrace.along htrace.run
  have hu := objstoreDestroy_unmounted hkept.ok.device
  have hm := objstoreInit_mounted hu.healthy
  have hkey := (hreturns.1.records 42 (by simp [hfill.live])).2.2.1 0 (by norm_num)
  have himage : (objstoreDestroy s).disk.image ((1 : ℕ) : ℤ) = fun _ => 0 := by
    have hone : 1 < objectBlock := by decide
    rw [hu.table 1 hone, hfill.dirty 1 (by norm_num), if_neg (by decide), hkept.low 1 hone]
  have hblock : keyAddr 42 / 4048 = 1 := by norm_num [keyAddr]
  have hlost : (objstoreInit (objstoreDestroy s)).objs (keyAddr 42) = 0 := by
    rw [hm.objs, tableByte, hblock, himage, bytes_zero]
    split_ifs <;> rfl
  have hlast : s.objs (keyAddr 42) = 97 := hfill.last (by norm_num)
  rw [Nat.add_zero, hlost, hlast] at hkey
  exact absurd hkey (by decide)

end Straddling

end OsAssignments.Remount
