import OsAssignments.Accounts

/-!
# Destroying an object

`destroy_object` gives the blocks of a record back one by one, each by toggling
its bit. A toggle is a release only because the accounts are in order at that
moment, so the loops carry the accounts of the references not given back yet. The
entries of an indirect block stay in it, on a block that is given back after them.
-/
namespace OsAssignments

open ByteMemory Bitmap ObjectTable Builds
open BlockCache (ValidBlock)

variable {build : Build} {strict : Prop} {s s₁ : Store} {n : ℕ} {S S' : Set Ref} {r : Ref}

open Classical in
/-- The values without the references of a set. -/
noncomputable def without (v : Ref → ℤ) (S : Set Ref) (r : Ref) : ℤ := if r ∈ S then 0 else v r

lemma without_of_mem {v : Ref → ℤ} (h : r ∈ S) : without v S r = 0 := if_pos h

lemma without_of_not_mem {v : Ref → ℤ} (h : r ∉ S) : without v S r = v r := if_neg h

lemma without_insert (v : Ref → ℤ) (S : Set Ref) (r : Ref) :
    without v (insert r S) = Function.update (without v S) r 0 := by
  funext q
  by_cases hq : q = r
  · subst hq
    rw [Function.update_self, without_of_mem (Set.mem_insert _ _)]
  · rw [Function.update_of_ne hq]
    by_cases hS : q ∈ S
    · rw [without_of_mem hS, without_of_mem (Set.mem_insert_of_mem _ hS)]
    · rw [without_of_not_mem hS, without_of_not_mem (by simp [hq, hS])]

lemma without_grow {v : Ref → ℤ} (hS : S ⊆ S') (hz : ∀ r ∈ S', r ∉ S → v r = 0) :
    without v S' = without v S := by
  funext q
  by_cases hq' : q ∈ S'
  · rw [without_of_mem hq']
    by_cases hq : q ∈ S
    · rw [without_of_mem hq]
    · rw [without_of_not_mem hq, hz q hq' hq]
  · rw [without_of_not_mem hq', without_of_not_mem fun h => hq' (hS h)]

/-- The middle of the destruction of slot `n`, begun at `s₁`: the references of
`S` are given back, and the others keep their blocks. -/
structure Releasing (build : Build) (strict : Prop) (s₁ : Store) (n : ℕ) (S : Set Ref)
    (s : Store) : Prop where
  device : (device build).Ok s.dev
  accounts : Accounts strict (without (value build s₁) S) s.bitMapData
  kept : ∀ r ∉ S, value build s₁ r ≠ 0 →
    view build s (value build s₁ r - writeOffset) = view build s₁ (value build s₁ r - writeOffset)
  pointers : ∀ i (j : Fin 8), pointer s.objs i j = without (value build s₁) S (.pointer i j)
  record : Resized s₁.objs s.objs n 0
  inodes : s.bitMapInode = s₁.bitMapInode
  lock : s.lockData = s₁.lockData
  low : ∀ p, p < writeOffset → s.dev.disk.image p = s₁.dev.disk.image p

namespace Releasing

lemma start (hdev : (Builds.device build).Ok s₁.dev)
    (hacc : Accounts strict (value build s₁) s₁.bitMapData) :
    Releasing build strict s₁ n ∅ s₁ := by
  have hnone : without (value build s₁) ∅ = value build s₁ :=
    funext fun r => without_of_not_mem (Set.notMem_empty r)
  refine ⟨hdev, ?_, fun r _ _ => rfl, fun i j => ?_, .refl _ _, rfl, rfl, fun p _ => rfl⟩ <;>
    rw [hnone]
  · exact hacc
  · rfl

/-- A reference not given back names a data block. -/
lemma block (h : Releasing build strict s₁ n S s) (hrS : r ∉ S) (hne : value build s₁ r ≠ 0) :
    ∃ b : ℕ, ValidBlock b ∧ value build s₁ r = writeOffset + b := by
  have hval := without_of_not_mem (v := value build s₁) hrS
  obtain ⟨b, hb, hv⟩ := h.accounts.range r (hval ▸ hne)
  exact ⟨b, validBlock_ofNat hb, hval ▸ hv⟩

/-- References that are empty anyway count as given back. -/
lemma skip (h : Releasing build strict s₁ n S s) (hS : S ⊆ S')
    (hz : ∀ r ∈ S', r ∉ S → value build s₁ r = 0) : Releasing build strict s₁ n S' s := by
  have hv := without_grow hS hz
  exact ⟨h.device, hv ▸ h.accounts, fun r hr => h.kept r fun hrS => hr (hS hrS),
    fun i j => by rw [hv]; exact h.pointers i j, h.record, h.inodes, h.lock, h.low⟩

/-- One reference given back: its bit is toggled and its block dropped. The
pointers already show the reference as empty. -/
lemma give (h : Releasing build strict s₁ n S s) (hrS : r ∉ S) (hne : value build s₁ r ≠ 0)
    {objs : Memory} (hrec : Resized s.objs objs n 0)
    (hptr : ∀ i (j : Fin 8), pointer objs i j =
      without (value build s₁) (insert r S) (.pointer i j)) :
    Releasing build strict s₁ n (insert r S)
      (releaseBlock build { s with objs := objs } (value build s₁ r - writeOffset)) := by
  obtain ⟨b, hvalid, hv⟩ := h.block hrS hne
  have hval : without (value build s₁) S r = writeOffset + b := (without_of_not_mem hrS).trans hv
  have hsub : value build s₁ r - writeOffset = b := by omega
  rw [hsub]
  refine ⟨dropBlock_ok h.device hvalid, ?_, fun q hq hqne => ?_, hptr, h.record.trans hrec,
    h.inodes, h.lock, fun p hp => ?_⟩
  · rw [without_insert]
    exact h.accounts.release hval
  · rw [Set.mem_insert_iff, not_or] at hq
    obtain ⟨c, hcvalid, hcv⟩ := h.block hq.2 hqne
    have hqval : without (value build s₁) S q = writeOffset + c :=
      (without_of_not_mem hq.2).trans hcv
    have hcb : (c : ℤ) ≠ b := by
      intro he
      refine hq.1 (h.accounts.inj (hqval ▸ position_ne_zero c) ?_)
      rw [hqval, hval, he]
    have hkept := h.kept q hq.2 hqne
    rw [show value build s₁ q - writeOffset = c by omega] at hkept ⊢
    exact (dropBlock_view h.device hvalid hcvalid hcb).trans hkept
  · rw [releaseBlock, dropBlock_disk]
    exact h.low p hp

/-- Reading a block on the way changes nothing. -/
lemma load (h : Releasing build strict s₁ n S s) {b : ℤ} (hb : ValidBlock b) :
    Releasing build strict s₁ n S { s with dev := (loadBlock build s.dev b).1 } := by
  refine ⟨loadBlock_ok h.device (Or.inl hb), h.accounts, fun r hr hne => ?_, h.pointers, h.record,
    h.inodes, h.lock, fun p hp => (loadBlock_low h.device (Or.inl hb) hp).trans (h.low p hp)⟩
  obtain ⟨c, hcvalid, hcv⟩ := h.block hr hne
  have hkept := h.kept r hr hne
  rw [show value build s₁ r - writeOffset = c by omega] at hkept ⊢
  exact (loadBlock_view h.device (Or.inl hb) hcvalid).trans hkept

end Releasing

section Loops

/-- The references given back after `m` direct pointers. -/
def directsBelow (n m : ℕ) : Set Ref :=
  {r | r.slot = n ∧ match r with
    | .pointer _ j => j < m
    | .entry _ _ _ => False}

/-- The references given back after the indirect pointers below `l` and `m` entries
of the block of `indirect[l]`. -/
def entriesBelow (n l m : ℕ) : Set Ref :=
  {r | r.slot = n ∧ match r with
    | .pointer _ j => j < 4 + l
    | .entry _ l' e => l' < l ∨ (l' : ℕ) = l ∧ e < m}

lemma directsBelow_zero : directsBelow n 0 = ∅ := by
  ext r
  cases r <;> simp [directsBelow]

lemma directsBelow_four : directsBelow n 4 = entriesBelow n 0 0 := by
  ext r
  cases r <;> simp [directsBelow, entriesBelow]

lemma directsBelow_succ (j : Fin 8) :
    directsBelow n (j + 1) = insert (.pointer n j) (directsBelow n j) := by
  ext r
  cases r with
  | pointer i j' =>
    simp only [directsBelow, Set.mem_insert_iff, Set.mem_ofPred_eq, Ref.slot, Ref.pointer.injEq,
      Fin.ext_iff]
    omega
  | entry i l e => simp [directsBelow]

lemma entriesBelow_succ {l m : ℕ} (hl : l < 4) (hm : m < 1024) :
    entriesBelow n l (m + 1) = insert (.entry n ⟨l, hl⟩ ⟨m, hm⟩) (entriesBelow n l m) := by
  ext r
  cases r with
  | pointer i j => simp [entriesBelow]
  | entry i l' e =>
    simp only [entriesBelow, Set.mem_insert_iff, Set.mem_ofPred_eq, Ref.slot, Ref.entry.injEq,
      Fin.ext_iff]
    omega

lemma entriesBelow_table {l : ℕ} (hl : l < 4) :
    entriesBelow n (l + 1) 0 = insert (.pointer n ⟨4 + l, by omega⟩) (entriesBelow n l 1024) := by
  ext r
  cases r with
  | pointer i j =>
    simp only [entriesBelow, Set.mem_insert_iff, Set.mem_ofPred_eq, Ref.slot, Ref.pointer.injEq,
      Fin.ext_iff]
    omega
  | entry i l' e =>
    simp only [entriesBelow, Set.mem_insert_iff, Set.mem_ofPred_eq,
      Ref.slot, reduceCtorEq, false_or]
    omega

lemma entriesBelow_four : entriesBelow n 4 0 = {r | r.slot = n} := by
  ext r
  cases r with
  | pointer i j =>
    simp only [entriesBelow, Set.mem_ofPred_eq, Ref.slot]
    omega
  | entry i l e =>
    simp only [entriesBelow, Set.mem_ofPred_eq, Ref.slot]
    omega

variable {l m : ℕ}

namespace Releasing

lemma direct (h : Releasing build strict s₁ n (directsBelow n m) s) (hm : m < 4) :
    Releasing build strict s₁ n (directsBelow n (m + 1)) (releaseDirect build n s m) := by
  have hnot : Ref.pointer n ⟨m, by omega⟩ ∉ directsBelow n m := by simp [directsBelow]
  have hval := h.pointers n ⟨m, by omega⟩
  rw [without_of_not_mem hnot] at hval
  have hsucc : directsBelow n (m + 1) = insert (.pointer n ⟨m, by omega⟩) (directsBelow n m) :=
    directsBelow_succ ⟨m, by omega⟩
  rw [hsucc, releaseDirect]
  split_ifs with hz
  · have hne : value build s₁ (.pointer n ⟨m, by omega⟩) ≠ 0 := by rwa [← hval]
    rw [show ObjectTable.direct s.objs n m = _ from hval]
    refine h.give hnot hne (.pointerOnly s.objs n (by omega) 0) fun i j => ?_
    rw [pointer_setPointer (by omega) j.isLt (by norm_num), without_insert, Function.update_apply,
      h.pointers i j]
    simp only [Ref.pointer.injEq, Fin.ext_iff, eq_comm (a := n), eq_comm (a := m)]
  · refine h.skip (Set.subset_insert _ _) fun r hr hrS => ?_
    obtain rfl := hr.resolve_right hrS
    rw [← hval]
    simpa using hz

lemma entry {tem : Block} (h : Releasing build strict s₁ n (entriesBelow n l m) s) (hl : l < 4)
    (hm : m < 1024) (htem : ObjectTable.entry tem m = value build s₁ (.entry n ⟨l, hl⟩ ⟨m, hm⟩)) :
    Releasing build strict s₁ n (entriesBelow n l (m + 1)) (releaseEntry build tem s m) := by
  have hnot : Ref.entry n ⟨l, hl⟩ ⟨m, hm⟩ ∉ entriesBelow n l m := by simp [entriesBelow]
  rw [entriesBelow_succ hl hm, releaseEntry]
  split_ifs with hz
  · have hne : value build s₁ (.entry n ⟨l, hl⟩ ⟨m, hm⟩) ≠ 0 := by rwa [← htem]
    rw [htem]
    refine h.give hnot hne (.refl s.objs n) fun i j => ?_
    rw [without_insert, Function.update_of_ne (by simp), h.pointers i j]
  · refine h.skip (Set.subset_insert _ _) fun r hr hrS => ?_
    obtain rfl := hr.resolve_right hrS
    rw [← htem]
    simpa using hz

lemma entries {tem : Block} (h : Releasing build strict s₁ n (entriesBelow n l 0) s) (hl : l < 4)
    (hm : m ≤ 1024)
    (htem : ∀ e : Fin 1024, ObjectTable.entry tem e = value build s₁ (.entry n ⟨l, hl⟩ e)) :
    Releasing build strict s₁ n (entriesBelow n l m)
      ((List.range m).foldl (releaseEntry build tem) s) := by
  induction m with
  | zero => exact h
  | succ m ih =>
    rw [List.range_succ, List.foldl_append, List.foldl_cons, List.foldl_nil]
    exact (ih (by omega)).entry hl (by omega) (htem ⟨m, by omega⟩)

lemma indirect (h : Releasing build strict s₁ n (entriesBelow n l 0) s) (hl : l < 4) :
    Releasing build strict s₁ n (entriesBelow n (l + 1) 0) (releaseIndirect build n s l) := by
  have hnot : Ref.pointer n ⟨4 + l, by omega⟩ ∉ entriesBelow n l 0 := by simp [entriesBelow]
  have hval := h.pointers n ⟨4 + l, by omega⟩
  rw [without_of_not_mem hnot] at hval
  have hs₁ : ObjectTable.indirect s.objs n l = ObjectTable.indirect s₁.objs n l := hval
  unfold releaseIndirect
  split_ifs with hz
  · have hne : value build s₁ (.pointer n ⟨4 + l, by omega⟩) ≠ 0 := by rwa [← hval]
    obtain ⟨b, hvalid, hb⟩ := h.block hnot hne
    have hind : ObjectTable.indirect s.objs n l - writeOffset = b := by
      have : ObjectTable.indirect s.objs n l = writeOffset + b := hval.trans hb
      omega
    have htem : (loadBlock build s.dev b).2 =
        view build s₁ (ObjectTable.indirect s₁.objs n l - writeOffset) := by
      have hkept := h.kept _ hnot hne
      rw [show value build s₁ (.pointer n ⟨4 + l, by omega⟩) = ObjectTable.indirect s₁.objs n l
        from rfl, ← hs₁, hind] at hkept
      rw [loadBlock_val h.device hvalid, ← hs₁, hind]
      exact hkept
    have hentry : ∀ e : Fin 1024, ObjectTable.entry (loadBlock build s.dev b).2 e =
        value build s₁ (.entry n ⟨l, hl⟩ e) := by
      intro e
      rw [htem, value, if_neg]
      rw [← hs₁]
      exact hz
    have hentries := (h.load hvalid).entries hl le_rfl hentry
    have hnot' : Ref.pointer n ⟨4 + l, by omega⟩ ∉ entriesBelow n l 1024 := by simp [entriesBelow]
    rw [entriesBelow_table hl]
    simp only [hind]
    have hgive := hentries.give hnot' hne (.pointerOnly _ n (j := 4 + l) (by omega) 0) fun i j => by
      rw [pointer_setPointer (by omega) j.isLt (by norm_num), without_insert, Function.update_apply,
        hentries.pointers i j]
      simp only [Ref.pointer.injEq, Fin.ext_iff, eq_comm (a := n), eq_comm (a := 4 + l)]
    rwa [show value build s₁ (.pointer n ⟨4 + l, by omega⟩) - writeOffset = b by omega] at hgive
  · refine h.skip ?_ fun r hr hrS => ?_
    · rw [entriesBelow_table hl]
      exact fun r hr => Set.mem_insert_of_mem _ (by
        obtain ⟨hslot, hr⟩ := hr
        refine ⟨hslot, ?_⟩
        cases r with
        | pointer i j => exact hr
        | entry i l' e => exact hr.imp_right fun h0 => by omega)
    · have hz' : ObjectTable.indirect s₁.objs n l = 0 := by
        rw [← hs₁]
        simpa using hz
      rw [entriesBelow_table hl] at hr
      rcases hr with rfl | ⟨hslot, hr⟩
      · exact hz'
      · cases r with
        | pointer i j => exact absurd ⟨hslot, hr⟩ hrS
        | entry i l' e =>
          obtain rfl : i = n := hslot
          rcases hr with hr | ⟨hr, _⟩
          · exact absurd ⟨rfl, Or.inl hr⟩ hrS
          · rw [value, hr, if_pos hz']

lemma directs (h : Releasing build strict s₁ n ∅ s) (hm : m ≤ 4) :
    Releasing build strict s₁ n (directsBelow n m)
      ((List.range m).foldl (releaseDirect build n) s) := by
  induction m with
  | zero => rwa [directsBelow_zero]
  | succ m ih =>
    rw [List.range_succ, List.foldl_append, List.foldl_cons, List.foldl_nil]
    exact (ih (by omega)).direct (by omega)

lemma indirects (h : Releasing build strict s₁ n (entriesBelow n 0 0) s) (hm : m ≤ 4) :
    Releasing build strict s₁ n (entriesBelow n m 0)
      ((List.range m).foldl (releaseIndirect build n) s) := by
  induction m with
  | zero => exact h
  | succ m ih =>
    rw [List.range_succ, List.foldl_append, List.foldl_cons, List.foldl_nil]
    exact (ih (by omega)).indirect (by omega)

end Releasing

end Loops

/-- What destroying the object of slot `n` does to the others: nothing. The slot
itself is free and empty. -/
structure Emptied (build : Build) (s s' : Store) (n : ℕ) : Prop where
  values : ∀ r, value build s' r = if r.slot = n then 0 else value build s r
  views : ∀ r, r.slot ≠ n → value build s r ≠ 0 →
    view build s' (value build s r - writeOffset) = view build s (value build s r - writeOffset)
  lives : ∀ m, s'.live m = (s.live m && decide (m ≠ n))
  sizes : ∀ m, m ≠ n → objSize s'.objs m = objSize s.objs m
  keys : ∀ m key, Fits key → keyIs s'.objs m key = keyIs s.objs m key
  lock : s'.lockData = s.lockData
  low : ∀ p, p < writeOffset → s'.dev.disk.image p = s.dev.disk.image p

/-- The loops start with every reference in place. -/
lemma value_unlinked (build : Build) (s : Store) (n : ℕ) :
    value build (unlinked s n) = value build s :=
  value_congr (fun _ _ hj => pointer_setSize hj) fun _ _ _ _ => rfl

section Spec

variable (h : StoreOk build strict s)
include h

/-- The loops of `destroy_object` give back every reference of the slot. -/
lemma destroyed_releasing (n : ℕ) :
    Releasing build strict (unlinked s n) n {r | r.slot = n} (destroyed build s n) := by
  have hval := value_unlinked build s n
  have hacc : Accounts strict (value build (unlinked s n)) (unlinked s n).bitMapData := by
    rw [hval]
    exact h.accounts
  have hstart : Releasing build strict (unlinked s n) n ∅ (unlinked s n) := .start h.device hacc
  have hdirects := hstart.directs (m := 4) le_rfl
  rw [directsBelow_four] at hdirects
  rw [← entriesBelow_four, destroyed]
  exact hdirects.indirects (m := 4) le_rfl

lemma destroyed_emptied (hlive : s.live n = true) : Emptied build s (destroyed build s n) n := by
  have hr := destroyed_releasing h n
  have hval := value_unlinked build s n
  have hptr : ∀ i (j : Fin 8), pointer (destroyed build s n).objs i j =
      if i = n then 0 else pointer s.objs i j := by
    intro i j
    rw [hr.pointers i j, hval]
    split_ifs with hi
    · exact without_of_mem hi
    · exact without_of_not_mem hi
  refine ⟨fun r => ?_, fun r hrn hne => ?_, fun m => ?_, fun m hm => ?_, fun m key hkey => ?_,
    hr.lock, fun p hp => hr.low p hp⟩
  · cases r with
    | pointer i j => exact hptr i j
    | entry i l e =>
      have hl : indirect (destroyed build s n).objs i l =
        if i = n then 0 else indirect s.objs i l :=
        hptr i ⟨4 + l, by omega⟩
      by_cases hi : i = n
      · rw [if_pos hi] at hl
        rw [if_pos (show (Ref.entry i l e).slot = n from hi), value, if_pos hl]
      · rw [if_neg hi] at hl
        rw [if_neg (show ¬(Ref.entry i l e).slot = n from hi)]
        refine value_entry_congr hl fun hz => ?_
        have hkept := hr.kept (.pointer i ⟨4 + l, by omega⟩) hi (by rw [hval]; exact hz)
        rw [hval] at hkept
        exact hkept
  · have hkept := hr.kept r hrn (by rwa [hval])
    rw [hval] at hkept
    exact hkept
  · rw [Store.live, hr.inodes, unlinked, bit_xorWord, Store.live]
    by_cases hm : n = m
    · subst hm
      unfold Store.live at hlive
      simp [hlive]
    · simp [hm, Ne.symm hm]
  · rw [hr.record.sizes m hm, unlinked, objSize_setSize_ne (Ne.symm hm)]
  · rw [hr.record.keys m key hkey, unlinked, keyIs_setSize hkey]

theorem destroyed_ok (hlive : s.live n = true) : StoreOk build strict (destroyed build s n) := by
  have hr := destroyed_releasing h n
  have he := destroyed_emptied h hlive
  have hval := value_unlinked build s n
  have hfinal : value build (destroyed build s n) =
      without (value build (unlinked s n)) {r | r.slot = n} := by
    funext r
    rw [he.values r, hval]
    split_ifs with hs
    · exact (without_of_mem hs).symm
    · exact (without_of_not_mem hs).symm
  have hsize : objSize (unlinked s n).objs n = 0 := by
    rw [unlinked, objSize_setSize (by norm_num), if_pos rfl]
  refine ⟨hr.device, ?_, fun m hm => ?_, fun m hm => ?_, fun m hm => ?_⟩
  · rw [hfinal]
    exact hr.accounts
  · by_cases hmn : m = n
    · subst hmn
      refine ⟨by simpa using hr.record.grown 0 hsize le_rfl (by norm_num), fun j hj => ?_⟩
      exact (he.values (.pointer m ⟨j, hj⟩)).trans (if_pos rfl)
    · rw [he.lives, decide_eq_true hmn, Bool.and_true] at hm
      obtain ⟨hz, hp⟩ := h.clean m hm
      refine ⟨(he.sizes m hmn).trans hz, fun j hj => ?_⟩
      exact (he.values (.pointer m ⟨j, hj⟩)).trans ((if_neg hmn).trans (hp j hj))
  · rw [he.lives, Bool.and_eq_true] at hm
    rw [hr.record.ids, unlinked, objId_setSize]
    exact h.ids m hm.1
  · rw [he.lives, Bool.and_eq_true] at hm
    exact h.slots m hm.1

end Spec

end OsAssignments
