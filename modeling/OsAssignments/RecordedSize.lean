import OsAssignments.ConcurrentStats
import OsAssignments.WriteCases

/-!
# The recorded size of an object

`objstore_write` adds the length of a write to the size of its object when it finds no
block mapped, and leaves the size alone otherwise. That is the end of the file as long
as new blocks are written at the end and mapped ones inside of it.
-/
namespace OsAssignments.RecordedSize

open ByteMemory Bitmap ObjectTable
open ConcurrentStats (fillupSizeDetails_temp)
open Machine (Along run)

variable {build : Build} {s s' : Store} {n b end' : ℕ}

/-- The arguments of one `objstore_write`. -/
structure WriteCall where
  buf : Memory
  size : ℕ
  offset : ℕ

namespace WriteCall

def stop (w : WriteCall) : ℕ := w.offset + w.size

def block (w : WriteCall) : ℕ := w.offset / blockSize

def page (w : WriteCall) : Block := bufferPage w.buf w.size

/-- The bytes lie inside one page of the first 4100 blocks. -/
def InRange (w : WriteCall) : Prop :=
  w.offset % blockSize + w.size ≤ blockSize ∧ w.offset / blockSize < 4100

lemma stop_le {w : WriteCall} (h : w.InRange) : w.stop ≤ 16793600 := by
  have hpage : w.offset % 4096 + w.size ≤ 4096 := h.1
  have hblock : w.offset / 4096 < 4100 := h.2
  unfold stop
  omega

end WriteCall

/-- A successful write to the object in slot `n`. -/
def succeed (build : Build) (n : ℕ) (s : Store) (w : WriteCall) : Option (Store × ℤ) :=
  (objstoreWrite build s (n + 2) w.buf w.size w.offset).filter fun x => x.2 = w.size

/-- The largest `offset+size` of a list of writes. -/
def fileEnd (ws : List WriteCall) : ℕ := ws.foldr (fun w e => max w.stop e) 0

/-- The size that `fillup_size_details` reports once the object was found. -/
def reported (s : Store) (n : ℕ) : Option ℤ :=
  (fillupSizeDetails { s with temp := some n } (n + 2)).map Prod.fst

/-- After every successful beginning of the writes the size is the end of the file. -/
def SizeIsEnd (build : Build) (n : ℕ) (s : Store) (ws : List WriteCall) : Prop :=
  ∀ pre, pre <+: ws → ∀ s' rs, run (succeed build n) s pre = some (s', rs) →
    reported s' n = some (fileEnd pre : ℤ)

/-- A new block is written at the end of the file (or nothing of it, and not behind the
end), a mapped one inside the file. -/
def Extends (build : Build) (n : ℕ) (s : Store) (w : WriteCall) : Prop :=
  ∀ b, WriteInBounds s n w.block w.size → FirstFree s.bitMapData dataBits b →
    (Unmapped build s n w.block b w.page →
      (w.offset : ℤ) = objSize s.objs n ∨ w.size = 0 ∧ (w.offset : ℤ) ≤ objSize s.objs n) ∧
    (¬Unmapped build s n w.block b w.page → (w.stop : ℤ) ≤ objSize s.objs n)

/-- The object in slot `n` with its number and its size. -/
structure Sized (s : Store) (n e : ℕ) : Prop where
  slot : n < slotCount
  id : objId s.objs n = (n + 2 : ℕ)
  size : objSize s.objs n = e

section Steps

variable {e : ℕ} {w : WriteCall} {r : ℤ}

lemma reported_eq (hslot : n < slotCount) (hid : objId s.objs n = (n + 2 : ℕ)) :
    reported s n = some (objSize s.objs n) := by
  have hstat : fillupSizeDetails { s with temp := some n } (n + 2) = _ :=
    fillupSizeDetails_temp (m := n) (n := n) rfl hid hslot
  rw [reported, hstat, if_pos rfl, Option.map_some]

lemma reported_iff (hslot : n < slotCount) (hid : objId s.objs n = (n + 2 : ℕ)) :
    reported s n = some (e : ℤ) ↔ Sized s n e := by
  rw [reported_eq hslot hid, Option.some.injEq]
  exact ⟨fun h => ⟨hslot, hid, h⟩, fun h => h.size⟩

lemma succeed_found (hb : FirstFree s.bitMapData dataBits b)
    (hin : WriteInBounds s n w.block w.size) :
    succeed build n s w = some (written build s n w.block w.size b w.page, (w.size : ℤ)) := by
  rw [succeed, objstoreWrite_found hb hin, Option.filter_some, if_pos (by simp)]
  rfl

/-- A successful write took the first free block. -/
lemma succeed_cases (h : succeed build n s w = some (s', r)) :
    ∃ b, WriteInBounds s n w.block w.size ∧ FirstFree s.bitMapData dataBits b ∧
      s' = written build s n w.block w.size b w.page := by
  rw [succeed, Option.filter_eq_some_iff] at h
  obtain ⟨hwrite, hret⟩ := h
  have hr : r = w.size := of_decide_eq_true hret
  rcases write_cases hwrite with ⟨hid, -, -⟩ | ⟨m, hm, hin, ⟨-, -, hfail⟩ | ⟨b, hb, -, hs'⟩⟩
  · omega
  · omega
  · obtain rfl : n = m := by omega
    exact ⟨b, hin, hb, hs'⟩

/-- A write keeps the number of its object. -/
lemma objId_written {k z : ℕ} {p : Block} :
    objId (written build s n k z b p).objs n = objId s.objs n :=
  loadInt_congr fun i hi => (written_frame build s n k z b p).record _ (by omega) (by omega)

lemma run_id {ws : List WriteCall} {rs : List ℤ}
    (hrun : run (succeed build n) s ws = some (s', rs)) : objId s'.objs n = objId s.objs n := by
  induction ws generalizing s rs with
  | nil =>
    cases hrun
    rfl
  | cons w ws ih =>
    obtain ⟨s₁, r, rs', hstep, hrun', -⟩ := Machine.run_cons.mp hrun
    obtain ⟨b, -, -, rfl⟩ := succeed_cases hstep
    exact (ih hrun').trans objId_written

/-- The size is the end of the file after a write that extends it, and only then. -/
lemma written_sized_iff (h : Sized s n e) (he : e ≤ 16793600) (hw : w.InRange)
    (hin : WriteInBounds s n w.block w.size) (hb : FirstFree s.bitMapData dataBits b) :
    Sized (written build s n w.block w.size b w.page) n (max e w.stop) ↔ Extends build n s w := by
  have hstop := WriteCall.stop_le hw
  have hoff : w.stop = w.offset + w.size := rfl
  have hlo : 0 ≤ objSize s.objs n := by rw [h.size]; omega
  have hhi : objSize s.objs n + w.size < 2 ^ 63 := by rw [h.size]; omega
  have hiff : Extends build n s w ↔
      (Unmapped build s n w.block b w.page → w.offset = e ∨ w.size = 0 ∧ w.offset ≤ e) ∧
      (¬Unmapped build s n w.block b w.page → w.stop ≤ e) := by
    rw [Extends, h.size]
    refine ⟨fun hext => ?_, fun hext b' _ hb' => ?_⟩
    · simpa only [Nat.cast_inj, Nat.cast_le] using hext b hin hb
    · rw [hb'.unique hb]
      simpa only [Nat.cast_inj, Nat.cast_le] using hext
  have hsized : Sized (written build s n w.block w.size b w.page) n (max e w.stop) ↔
      objSize (written build s n w.block w.size b w.page).objs n = (max e w.stop : ℕ) :=
    ⟨fun h' => h'.size, fun h' => ⟨h.slot, objId_written.trans h.id, h'⟩⟩
  rw [hiff, hsized]
  by_cases hu : Unmapped build s n w.block b w.page
  · rw [written_size hu hlo hhi, h.size]
    simp only [hu, forall_const, not_true_eq_false, false_imp_iff, and_true]
    omega
  · rw [written_size_mapped hu, h.size]
    simp only [hu, not_false_eq_true, forall_const, false_imp_iff, true_and]
    omega

/-- What holds of the first write and of the rest, by induction on the writes. -/
lemma sized_iff {ws : List WriteCall} (h : Sized s n e) (he : e ≤ 16793600)
    (hws : ∀ w ∈ ws, w.InRange) :
    (∀ pre, pre <+: ws → ∀ s' rs, run (succeed build n) s pre = some (s', rs) →
        Sized s' n (max e (fileEnd pre))) ↔
      Along (succeed build n) (Extends build n) s ws := by
  induction ws generalizing s e with
  | nil =>
    refine ⟨fun _ => trivial, fun _ pre hpre s' rs hrun => ?_⟩
    obtain rfl := List.prefix_nil.mp hpre
    cases hrun
    simpa [fileEnd] using h
  | cons w ws ih =>
    have hw : w.InRange := hws w List.mem_cons_self
    have hrest : ∀ v ∈ ws, v.InRange := fun v hv => hws v (List.mem_cons_of_mem w hv)
    have hmax : max e w.stop ≤ 16793600 := max_le he (WriteCall.stop_le hw)
    have hend : ∀ pre, max (max e w.stop) (fileEnd pre) = max e (fileEnd (w :: pre)) :=
      fun pre => max_assoc _ _ _
    constructor
    · intro hall
      have hfirst : ∀ s₁ r, succeed build n s w = some (s₁, r) → Sized s₁ n (max e w.stop) := by
        intro s₁ r hstep
        have hone := hall [w] ⟨ws, rfl⟩ s₁ [r] (Machine.run_cons.mpr ⟨s₁, r, [], hstep, rfl, rfl⟩)
        simpa [fileEnd] using hone
      refine ⟨fun b hin hb => ?_, fun s₁ r hstep => ?_⟩
      · have hsized := hfirst _ _ (succeed_found hb hin)
        exact (written_sized_iff h he hw hin hb).mp hsized b hin hb
      · refine (ih (hfirst s₁ r hstep) hmax hrest).mp fun pre hpre s' rs hrun => ?_
        rw [hend]
        exact hall (w :: pre) (List.cons_prefix_cons.mpr ⟨rfl, hpre⟩) s' (r :: rs)
          (Machine.run_cons.mpr ⟨s₁, r, rs, hstep, hrun, rfl⟩)
    · rintro ⟨hext, halong⟩ pre hpre s' rs hrun
      cases pre with
      | nil =>
        cases hrun
        simpa [fileEnd] using h
      | cons v pre =>
        obtain ⟨rfl, hpre'⟩ := List.cons_prefix_cons.mp hpre
        obtain ⟨s₁, r, rs', hstep, hrun', -⟩ := Machine.run_cons.mp hrun
        obtain ⟨b, hin, hb, rfl⟩ := succeed_cases hstep
        have hsized := (written_sized_iff h he hw hin hb).mpr hext
        rw [← hend]
        exact (ih hsized hmax hrest).mpr (halong _ r hstep) pre hpre' s' rs' hrun'

end Steps

/-- A new object in an empty slot has size 0. -/
lemma created_sized {key : CString} {s₀ : Store} (hsize : objSize s.objs n = 0)
    (hcreate : createObject s key = some (s₀, ((n + 2 : ℕ) : ℤ))) : Sized s₀ n 0 := by
  rcases create_cases hcreate with ⟨-, -, hr⟩ | ⟨m, hm, -, rfl, hr⟩
  · omega
  · obtain rfl : n = m := by omega
    refine ⟨hm.1, objId_created hm.1, ?_⟩
    have hkey : objSize (created s n key).objs n = objSize (setId s.objs n (n + 2 : ℕ)) n :=
      loadInt_storeBytes (by rw [keyAddr]; omega)
    rw [hkey, objSize_setId, hsize]
    rfl

/-- The size of a new object is the end of the file all along exactly when every write
to a new block starts there and every other write ends inside the file. -/
theorem size_is_end_iff (build : Build) (s s₀ : Store) (n : ℕ) (key : CString)
    (ws : List WriteCall) (hsize : objSize s.objs n = 0)
    (hcreate : createObject s key = some (s₀, ((n + 2 : ℕ) : ℤ))) (hws : ∀ w ∈ ws, w.InRange) :
    SizeIsEnd build n s₀ ws ↔ Along (succeed build n) (Extends build n) s₀ ws := by
  have hsized := created_sized hsize hcreate
  rw [← sized_iff hsized (by norm_num) hws]
  refine forall₂_congr fun pre _ => forall₃_congr fun s' rs hrun => ?_
  rw [Nat.zero_max]
  exact reported_iff hsized.slot ((run_id hrun).trans hsized.id)

section Examples

/-- One page of ones at the start of the file. -/
def firstPage : WriteCall := ⟨fun _ => 1, blockSize, 0⟩

/-- One page of ones at the second block. -/
def secondPage : WriteCall := ⟨fun _ => 1, blockSize, blockSize⟩

/-- A hundred ones at the third block. -/
def lastPart : WriteCall := ⟨fun _ => 1, 100, 2 * blockSize⟩

/-- An object of `e` bytes without direct blocks from block `k` on. -/
structure Ends (build : Build) (s : Store) (n k e : ℕ) : Prop where
  ok : StoreOk build True s
  live : s.live n = true
  size : objSize s.objs n = e
  empty : ∀ j, k ≤ j → j < 4 → direct s.objs n j = 0

variable {k e : ℕ} {w : WriteCall} {r : ℤ}

/-- A write of the next direct block, at the end of the file. -/
lemma Ends.extends (h : Ends build s n k e) (hk : k < 4) (hblock : w.block = k)
    (hoffset : w.offset = e) : Extends build n s w := by
  intro b _ _
  have hunmapped : Unmapped build s n w.block b w.page := by
    rw [Unmapped, hblock, if_pos hk]
    exact h.empty k le_rfl hk
  refine ⟨fun _ => Or.inl ?_, fun hmapped => absurd hunmapped hmapped⟩
  rw [hoffset, h.size]

lemma Ends.step (h : Ends build s n k e) (hk : k < 4) (he : e + w.size < 2 ^ 63)
    (hblock : w.block = k) (hstep : succeed build n s w = some (s', r)) :
    Ends build s' n (k + 1) (e + w.size) := by
  have hnone : direct s.objs n k = 0 := h.empty k le_rfl hk
  obtain ⟨b, hin, hb, rfl⟩ := succeed_cases hstep
  rw [hblock, written, if_pos hk, writeDirect_fresh hk hnone]
  obtain ⟨hok, hfill⟩ := hungDirect_spec (z := w.size) (p := w.page) h.ok h.live hb hk hnone
  refine ⟨hok, ?_, ?_, fun j hj hlt => ?_⟩
  · rw [Store.live, hfill.inodes]
    exact h.live
  · rw [hfill.record.grown _ h.size (by omega) (by omega), Nat.cast_add]
  · have hne : Ref.ofBlock n j ≠ .ofBlock n k := fun heq => by
      have := (Ref.ofBlock_inj (by omega) (by omega) heq).2
      omega
    rw [← value_ofBlock_lt hlt, hfill.data _ (Ref.isData_ofBlock n j), if_neg hne,
      value_ofBlock_lt hlt]
    exact h.empty j (by omega) hlt

lemma created_ends (build : Build) :
    Ends build (created (objstoreInit blankDevice) 0 keyA) 0 0 0 := by
  have hempty := objstoreInit_empty blankDevice_blank
  refine ⟨hempty.createdOk (by decide), by simp [live_created], ?_, fun j _ hlt => ?_⟩
  · rw [objSize_created (by decide), hempty.objs]
    decide
  · have hvalue : value build (created (objstoreInit blankDevice) 0 keyA) (.ofBlock 0 j) = 0 :=
      hempty.createdValue (by decide) _
    rwa [value_ofBlock_lt hlt] at hvalue

lemma first_created : createObject (objstoreInit blankDevice) keyA =
    some (created (objstoreInit blankDevice) 0 keyA, ((0 + 2 : ℕ) : ℤ)) :=
  (createObject_eq (objstoreInit_empty blankDevice_blank).firstSlot).trans (if_pos (by decide))

lemma first_size : objSize (objstoreInit blankDevice).objs 0 = 0 := by
  rw [(objstoreInit_empty blankDevice_blank).objs]
  decide

/-- Two pages and a part of a third. -/
theorem size_is_end_iff_first : SizeIsEnd .objfs 0 (created (objstoreInit blankDevice) 0 keyA)
    [firstPage, secondPage, lastPart] := by
  have hends := created_ends .objfs
  refine (size_is_end_iff .objfs _ _ 0 keyA [firstPage, secondPage, lastPart] first_size
    first_created ?_).mpr ⟨hends.extends (by decide) (by decide) rfl, fun s₁ r₁ h₁ => ?_⟩
  · simp only [List.forall_mem_cons, WriteCall.InRange]
    decide
  · have hends₁ := hends.step (by decide) (by decide) (by decide) h₁
    refine ⟨hends₁.extends (by decide) (by decide) rfl, fun s₂ r₂ h₂ => ?_⟩
    have hends₂ := hends₁.step (by decide) (by decide) (by decide) h₂
    exact ⟨hends₂.extends (by decide) (by decide) rfl, fun _ _ _ => trivial⟩

/-- A page behind a hole counts as the first one. -/
theorem gap_not_counted : ¬∀ ws : List WriteCall, (∀ w ∈ ws, w.InRange) →
    SizeIsEnd .objfs 0 (created (objstoreInit blankDevice) 0 keyA) ws := by
  intro hclaim
  have hempty := objstoreInit_empty blankDevice_blank
  have hrange : secondPage.InRange := ⟨by decide, by decide⟩
  have hsized := created_sized first_size first_created
  have hin : WriteInBounds (created (objstoreInit blankDevice) 0 keyA) 0 secondPage.block
      secondPage.size := ⟨le_rfl, by decide, by decide, hempty.lock⟩
  have hb : FirstFree (created (objstoreInit blankDevice) 0 keyA).bitMapData dataBits 0 :=
    (hempty.picks 1).data
  have hreported := hclaim [secondPage] (fun w hw => List.mem_singleton.mp hw ▸ hrange) [secondPage]
    List.prefix_rfl _ _ (Machine.run_cons.mpr ⟨_, _, [], succeed_found hb hin, rfl, rfl⟩)
  rw [reported_iff hsized.slot (objId_written.trans hsized.id)] at hreported
  have hext := (written_sized_iff hsized (by norm_num) hrange hin hb).mp
    (by simpa [fileEnd] using hreported) 0 hin hb
  rw [hsized.size] at hext
  by_cases hu : Unmapped .objfs (created (objstoreInit blankDevice) 0 keyA) 0 secondPage.block 0
    secondPage.page
  · exact absurd (hext.1 hu) (by decide)
  · exact absurd (hext.2 hu) (by decide)

end Examples

end OsAssignments.RecordedSize
