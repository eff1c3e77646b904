import OsAssignments.StoreRuns

/-!
# What a call touches

Besides data blocks and bitmaps a call changes the bytes of one record and marks
one block of the table for write-back. What it does to the table depends on the
table alone, whatever the build.
-/
namespace OsAssignments

open ByteMemory Bitmap ObjectTable Builds

variable {build : Build} {strict : Prop} {s s' : Store} {n k z b t : ℕ} {p : Block}
  {key : CString}

section Records

/-- The tables agree outside record `n`. -/
def SameOutside (n : ℕ) (m m' : Memory) : Prop := ∀ a, a < 96 * n ∨ 96 * n + 96 ≤ a → m' a = m a

lemma SameOutside.refl (n : ℕ) (m : Memory) : SameOutside n m m := fun _ _ => rfl

lemma SameOutside.trans {m m' m'' : Memory} (h : SameOutside n m m') (h' : SameOutside n m' m'') :
    SameOutside n m m'' := fun a ha => (h' a ha).trans (h a ha)

/-- A store into the record. -/
lemma sameOutside_store (m : Memory) {a len : ℕ} {src : ℕ → UInt8} (ha : 96 * n ≤ a)
    (ha' : a + len ≤ 96 * n + 96) : SameOutside n m (storeBytes m a len src) :=
  fun x hx => storeBytes_of_not_mem (by omega)

lemma sameOutside_setId (m : Memory) (v : ℤ) : SameOutside n m (setId m n v) :=
  sameOutside_store m (by omega) (by omega)

lemma sameOutside_setSize (m : Memory) (v : ℤ) : SameOutside n m (setSize m n v) :=
  sameOutside_store m (by omega) (by omega)

lemma sameOutside_setPointer (m : Memory) {j : ℕ} (hj : j < 8) (v : ℤ) :
    SameOutside n m (setPointer m n j v) := sameOutside_store m (by omega) (by omega)

lemma sameOutside_setKey (m : Memory) (hk : Fits key) : SameOutside n m (setKey m n key) := by
  have hlen : key.length ≤ 47 := hk
  exact sameOutside_store m (by rw [keyAddr]; omega) (by rw [keyAddr]; omega)

section Others

variable {m m' : Memory} {i : ℕ} (h : SameOutside n m m') (hi : i ≠ n)
include h hi

lemma SameOutside.objSize : objSize m' i = ObjectTable.objSize m i :=
  loadInt_congr fun _ _ => h _ (by omega)

lemma SameOutside.pointer {j : ℕ} (hj : j < 8) : pointer m' i j = ObjectTable.pointer m i j :=
  loadInt_congr fun _ _ => h _ (by omega)

end Others

end Records

section Destroyed

/-- Pointer `j` of record `n` set to zero unless it is. -/
def clearPointer (n : ℕ) (m : Memory) (j : ℕ) : Memory :=
  if pointer m n j ≠ 0 then setPointer m n j 0 else m

/-- The table after the object of slot `n` was destroyed. -/
def clearRecord (m : Memory) (n : ℕ) : Memory :=
  (List.range 4).foldl (fun m l => clearPointer n m (4 + l))
    ((List.range 4).foldl (clearPointer n) (setSize m n 0))

/-- From `s` to `s'` the table became `objs`, and the inode bitmap, the marks and the
search result stayed. -/
structure Retabled (s s' : Store) (objs : Memory) : Prop where
  objs : s'.objs = objs
  inodes : s'.bitMapInode = s.bitMapInode
  dirty : s'.dBitMap = s.dBitMap
  temp : s'.temp = s.temp

lemma Retabled.trans {s'' : Store} {m m' : Memory} (h : Retabled s s' m)
    (h' : Retabled s' s'' m') : Retabled s s'' m' :=
  ⟨h'.objs, h'.inodes.trans h.inodes, h'.dirty.trans h.dirty, h'.temp.trans h.temp⟩

lemma releaseDirect_table (build : Build) (n : ℕ) (s : Store) (l : ℕ) :
    Retabled s (releaseDirect build n s l) (clearPointer n s.objs l) := by
  rw [releaseDirect, clearPointer]
  split_ifs <;> exact ⟨rfl, rfl, rfl, rfl⟩

lemma releaseEntries_table (build : Build) (tem : Block) (es : List ℕ) (s : Store) :
    Retabled s (es.foldl (releaseEntry build tem) s) s.objs := by
  induction es generalizing s with
  | nil => exact ⟨rfl, rfl, rfl, rfl⟩
  | cons e es ih =>
    have hstep : Retabled s (releaseEntry build tem s e) s.objs := by
      unfold releaseEntry
      split_ifs <;> exact ⟨rfl, rfl, rfl, rfl⟩
    have hrest := hstep.trans (ih (releaseEntry build tem s e))
    rwa [hstep.objs] at hrest

lemma releaseIndirect_table (s : Store) (l : ℕ) :
    Retabled s (releaseIndirect build n s l) (clearPointer n s.objs (4 + l)) := by
  rw [releaseIndirect, clearPointer]
  generalize List.range 1024 = es
  split_ifs
  · have hrest := releaseEntries_table build
      (loadBlock build s.dev (indirect s.objs n l - writeOffset)).2 es
      { s with dev := (loadBlock build s.dev (indirect s.objs n l - writeOffset)).1 }
    exact ⟨congrArg (fun m => setPointer m n (4 + l) 0) hrest.objs, hrest.inodes,
      hrest.dirty, hrest.temp⟩
  · exact ⟨rfl, rfl, rfl, rfl⟩

lemma foldl_table {f : Store → ℕ → Store} {g : Memory → ℕ → Memory}
    (h : ∀ s l, Retabled s (f s l) (g s.objs l)) (ls : List ℕ) (s : Store) :
    Retabled s (ls.foldl f s) (ls.foldl g s.objs) := by
  induction ls generalizing s with
  | nil => exact ⟨rfl, rfl, rfl, rfl⟩
  | cons l ls ih =>
    have hrest := (h s l).trans (ih (f s l))
    rwa [(h s l).objs] at hrest

/-- Destroying an object clears its record, whatever the build. -/
theorem destroyed_table (build : Build) (s : Store) (n : ℕ) :
    Retabled (unlinked s n) (destroyed build s n) (clearRecord s.objs n) := by
  have hdirects := foldl_table (releaseDirect_table build n) (List.range 4)
    (unlinked s n)
  have hindirects := foldl_table (f := releaseIndirect build n)
    (g := fun m l => clearPointer n m (4 + l)) releaseIndirect_table (List.range 4)
    ((List.range 4).foldl (releaseDirect build n) (unlinked s n))
  rw [hdirects.objs] at hindirects
  exact ⟨hindirects.objs, hindirects.inodes.trans hdirects.inodes,
    hindirects.dirty.trans hdirects.dirty, hindirects.temp.trans hdirects.temp⟩

lemma sameOutside_clearPointer (m : Memory) {j : ℕ} (hj : j < 8) :
    SameOutside n m (clearPointer n m j) := by
  unfold clearPointer
  split_ifs
  · exact sameOutside_setPointer m hj 0
  · exact .refl n m

lemma sameOutside_foldl {g : Memory → ℕ → Memory} {k : ℕ} (m : Memory)
    (hg : ∀ m, ∀ l < k, SameOutside n m (g m l)) : SameOutside n m ((List.range k).foldl g m) :=
  List.foldlRecOn (motive := SameOutside n m) _ g (.refl n m) fun m' hm' l hl =>
    hm'.trans (hg m' l (List.mem_range.mp hl))

lemma sameOutside_clearRecord (m : Memory) : SameOutside n m (clearRecord m n) := by
  have hdirects := sameOutside_foldl (n := n) (g := clearPointer n) (setSize m n 0)
    fun m l (hl : l < 4) => sameOutside_clearPointer m (by omega)
  have hindirects := sameOutside_foldl (n := n) (g := fun m l => clearPointer n m (4 + l))
    ((List.range 4).foldl (clearPointer n) (setSize m n 0))
    fun m l (hl : l < 4) => sameOutside_clearPointer m (by omega)
  exact ((sameOutside_setSize m 0).trans hdirects).trans hindirects

section Cleared

variable {m : Memory} {j j' : ℕ}

lemma pointer_clearPointer (hj : j < 8) (hj' : j' < 8) :
    pointer (clearPointer n m j) n j' = if j = j' then 0 else pointer m n j' := by
  unfold clearPointer
  split_ifs with hz he he
  · rw [pointer_setPointer hj hj' (by norm_num), if_pos ⟨rfl, he⟩]
  · rw [pointer_setPointer hj hj' (by norm_num), if_neg (by simp [he])]
  · rw [← he]
    simpa using hz
  · rfl

lemma pointer_foldl_clear {js : List ℕ} (hjs : ∀ j ∈ js, j < 8) (m : Memory) (hj' : j' < 8)
    (h : j' ∈ js ∨ pointer m n j' = 0) : pointer (js.foldl (clearPointer n) m) n j' = 0 := by
  induction js generalizing m with
  | nil => exact h.resolve_left List.not_mem_nil
  | cons j js ih =>
    refine ih (fun i hi => hjs i (List.mem_cons_of_mem _ hi)) _ ?_
    rw [pointer_clearPointer (hjs j List.mem_cons_self) hj']
    rw [List.mem_cons, or_assoc] at h
    rcases h with rfl | hmem | hz
    · exact Or.inr (if_pos rfl)
    · exact Or.inl hmem
    · apply Or.inr
      split_ifs
      · rfl
      · exact hz

lemma objSize_foldl_clear {js : List ℕ} (hjs : ∀ j ∈ js, j < 8) (m : Memory) :
    objSize (js.foldl (clearPointer n) m) n = objSize m n := by
  induction js generalizing m with
  | nil => rfl
  | cons j js ih =>
    rw [List.foldl_cons, ih fun i hi => hjs i (List.mem_cons_of_mem _ hi), clearPointer]
    split_ifs
    · exact objSize_setPointer (hjs j List.mem_cons_self)
    · rfl

/-- The eight pointers are cleared one after the other. -/
lemma clearRecord_eq (m : Memory) (n : ℕ) : clearRecord m n =
    (List.range 4 ++ (List.range 4).map (4 + ·)).foldl (clearPointer n) (setSize m n 0) := by
  rw [List.foldl_append, List.foldl_map, clearRecord]

/-- A destroyed record is empty. -/
theorem clearRecord_empty (m : Memory) (n : ℕ) :
    objSize (clearRecord m n) n = 0 ∧ ∀ j < 8, pointer (clearRecord m n) n j = 0 := by
  have hjs : ∀ j ∈ List.range 4 ++ (List.range 4).map (4 + ·), j < 8 := by decide
  rw [clearRecord_eq]
  refine ⟨?_, fun j hj => pointer_foldl_clear hjs _ hj (Or.inl ?_)⟩
  · rw [objSize_foldl_clear hjs, objSize_setSize (by norm_num), if_pos rfl]
  · simp only [List.mem_append, List.mem_map, List.mem_range]
    by_cases hlt : j < 4
    · exact Or.inl hlt
    · exact Or.inr ⟨j - 4, by omega, by omega⟩

end Cleared

end Destroyed

section Calls

/-- Outside the data blocks and the bitmaps a call changed record `n`, and marked it. -/
structure Touches (s s' : Store) (n : ℕ) : Prop where
  objs : SameOutside n s.objs s'.objs
  dirty : s'.dBitMap = Function.update s.dBitMap (n / 46) true
  low : ∀ p, p < writeOffset → s'.dev.disk.image p = s.dev.disk.image p

lemma created_touches (s : Store) (hk : Fits key) : Touches s (created s n key) n :=
  ⟨(sameOutside_setId _ _).trans (sameOutside_setKey _ hk), rfl, fun _ _ => rfl⟩

lemma renamed_touches (s : Store) (hk : Fits key) : Touches s (renamed s n key) n :=
  ⟨sameOutside_setKey _ hk, rfl, fun _ _ => rfl⟩

lemma destroyed_touches (h : StoreOk build strict s) (hlive : s.live n = true) :
    Touches s (destroyed build s n) n := by
  have ht := destroyed_table build s n
  refine ⟨?_, ht.dirty, (destroyed_emptied h hlive).low⟩
  rw [ht.objs]
  exact sameOutside_clearRecord s.objs

section Hung

variable (h : StoreOk build strict s) (hb : b < dataBits)
include h hb

lemma placed_low {q : ℤ} (hq : q < writeOffset) :
    (placed build s n b p).dev.disk.image q = s.dev.disk.image q :=
  storeBlock_low h.device (validBlock_ofNat hb) hq

lemma hungDirect_touches (hk : k < 4) : Touches s (hungDirect build s n k z b p) n :=
  ⟨(sameOutside_setPointer _ (by omega) _).trans (sameOutside_setSize _ _), rfl,
    fun _ hq => placed_low (n := n) h hb hq⟩

lemma hungEntry_touches {l e : ℕ} (hl : l < 4) (hne : indirect s.objs n l ≠ 0) :
    Touches s (hungEntry build s n l e z b p) n := by
  have hind := h.indirect_valid hl hne
  have hplaced := placed_ok (n := n) (p := p) h.device hb
  refine ⟨sameOutside_setSize _ _, rfl, fun q hq => ?_⟩
  exact (storeBlock_low (loadBlock_ok hplaced (Or.inl hind)) hind hq).trans
    ((loadBlock_low hplaced (Or.inl hind) hq).trans (placed_low h hb hq))

lemma hungTable_touches {l e : ℕ} (hl : l < 4) (ht : t < dataBits) :
    Touches s (hungTable build s n l e z b t p) n := by
  refine ⟨(sameOutside_setPointer _ (by omega) _).trans (sameOutside_setSize _ _), rfl,
    fun q hq => ?_⟩
  exact (storeBlock_low (placed_ok h.device hb) (validBlock_ofNat ht) hq).trans
    (placed_low h hb hq)

end Hung

lemma hung_touches (h : StoreOk build strict s) (hk : k < 4100) (hp : Picks s n k b t) :
    Touches s (hung build s n k z b t p) n := by
  unfold hung
  split_ifs with hk' hz
  · exact hungDirect_touches h hp.data.1 hk'
  · exact hungTable_touches h hp.data.1 (by omega) (hp.table ⟨hk', hz⟩).1
  · exact hungEntry_touches h hp.data.1 (by omega) hz

end Calls

end OsAssignments
