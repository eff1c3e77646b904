import OsAssignments.ObjStore

/-!
# The loops of a read

`objstore_read` walks the pointers of a record and the entries of its indirect blocks
with one counter for the pages to skip and one for the pages to read. What the loops
do is said once here, over any condition `P` on devices under which the fetched blocks
are known: they put the pages of the range into the buffer, and the blocks they fetch
are those of the range in order, each table before its entries.
-/
namespace OsAssignments

open ByteMemory ObjectTable

variable {build : Build} {P : Device → Prop} {s : Store} {n size offset : ℕ}

/-- Fetch the block of a pointer. -/
def fetch (build : Build) (d : Device) (ptr : ℤ) : Device × Block :=
  loadBlock build d (ptr - writeOffset)

/-- Where `P` holds it stays when the block of `ptr` is fetched, which comes as `page`. -/
def Fetches (build : Build) (P : Device → Prop) (ptr : ℤ) (page : Block) : Prop :=
  ∀ d, P d → P (fetch build d ptr).1 ∧ (fetch build d ptr).2 = page

/-- Between `r` and `r'` the first `count` pages of `page` came into the buffer. -/
structure PagesLoaded (P : Device → Prop) (page : ℕ → Block) (count : ℕ) (r r' : ReadState) :
    Prop where
  dev : P r'.dev
  total : r'.totalBlocks = r.totalBlocks - count
  iterator : r'.iterator = r.iterator + count
  array : ∀ x, r'.readArray x = if r.iterator ≤ x ∧ x < r.iterator + count then
    page (x - r.iterator) else r.readArray x

namespace PagesLoaded

variable {page page' : ℕ → Block} {c c' : ℕ} {r r₁ r₂ : ReadState}

lemma refl (h : P r.dev) : PagesLoaded P page 0 r r :=
  ⟨h, rfl, rfl, fun x => by rw [if_neg (by omega)]⟩

/-- Two stretches of pages, one behind the other. -/
lemma trans (h : PagesLoaded P page c r r₁) (h' : PagesLoaded P page' c' r₁ r₂)
    (hpage : ∀ x < c', page' x = page (c + x)) : PagesLoaded P page (c + c') r r₂ := by
  refine ⟨h'.dev, ?_, ?_, fun x => ?_⟩
  · rw [h'.total, h.total, Nat.sub_sub]
  · rw [h'.iterator, h.iterator, Nat.add_assoc]
  · rw [h'.array, h.array, h.iterator]
    by_cases hlast : r.iterator + c ≤ x ∧ x < r.iterator + c + c'
    · rw [if_pos hlast, if_pos (by omega), hpage _ (by omega)]
      congr 1
      omega
    · rw [if_neg hlast]
      by_cases hfirst : r.iterator ≤ x ∧ x < r.iterator + c
      · rw [if_pos hfirst, if_pos (by omega)]
      · rw [if_neg hfirst, if_neg (by omega)]

end PagesLoaded

section Sizes

lemma totalBlocks_eq (size : ℕ) :
    totalBlocks size = if 0 < size % 4096 then size / 4096 + 1 else size / 4096 := rfl

lemma totalBlocks_le {size pages : ℕ} : totalBlocks size ≤ pages ↔ size ≤ 4096 * pages := by
  rw [totalBlocks_eq]
  split_ifs <;> omega

lemma lt_totalBlocks {size page : ℕ} : page < totalBlocks size ↔ 4096 * page < size := by
  rw [totalBlocks_eq]
  split_ifs <;> omega

end Sizes

section Traces

/-- The pointers whose blocks the loop over `k` pointers from the `i`-th on fetches. -/
def pointerFetches (ptr : ℕ → ℤ) : ℕ → ℕ → ℕ → ℕ → List ℤ
  | 0, _, _, _ => []
  | k + 1, i, offie, total =>
    if 0 < total then
      if 0 < offie then pointerFetches ptr k (i + 1) (offie - 1) total
      else ptr i :: pointerFetches ptr k (i + 1) offie (total - 1)
    else []

/-- The pointers whose blocks the loop over `k` indirect pointers from the `j`-th on fetches. -/
def indirectFetches (build : Build) (ind : ℕ → ℤ) : ℕ → ℕ → ReadState → List ℤ
  | 0, _, _ => []
  | k + 1, j, r =>
    if 0 < r.totalBlocks then
      let l := fetch build r.dev (ind j)
      ind j :: (pointerFetches (entry l.2) 1024 0 r.offie r.totalBlocks ++
        indirectFetches build ind k (j + 1) (readPointers build (entry l.2) 1024 0
          { r with dev := l.1 }))
    else []

/-- The pointers whose blocks a read of the object in slot `n` fetches, in order. -/
def readFetches (build : Build) (s : Store) (n size offset : ℕ) : List ℤ :=
  pointerFetches (direct s.objs n) 4 0 (offset / blockSize) (totalBlocks size) ++
    indirectFetches build (indirect s.objs n) 4 0 (readPointers build (direct s.objs n) 4 0
      ⟨s.dev, offset / blockSize, totalBlocks size, 0, fun _ _ => 0⟩)

def fetchAll (build : Build) (d : Device) (ptrs : List ℤ) : Device :=
  ptrs.foldl (fun d ptr => (fetch build d ptr).1) d

lemma fetchAll_append (d : Device) (ps qs : List ℤ) :
    fetchAll build d (ps ++ qs) = fetchAll build (fetchAll build d ps) qs := List.foldl_append

lemma readPointers_dev (build : Build) (ptr : ℕ → ℤ) (k i : ℕ) (r : ReadState) :
    (readPointers build ptr k i r).dev =
      fetchAll build r.dev (pointerFetches ptr k i r.offie r.totalBlocks) := by
  induction k generalizing i r with
  | zero => rfl
  | succ k ih =>
    rw [readPointers, pointerFetches]
    split_ifs with htotal ho
    · rw [ih, readPointer, if_pos ho]
    · rw [ih, readPointer, if_neg ho]
      rfl
    · rfl

lemma readIndirects_dev (build : Build) (ind : ℕ → ℤ) (k j : ℕ) (r : ReadState) :
    (readIndirects build ind k j r).dev =
      fetchAll build r.dev (indirectFetches build ind k j r) := by
  induction k generalizing j r with
  | zero => rfl
  | succ k ih =>
    rw [readIndirects, indirectFetches]
    split_ifs with htotal
    · have hentries := readPointers_dev build (entry (fetch build r.dev (ind j)).2) 1024 0
        { r with dev := (fetch build r.dev (ind j)).1 }
      refine (ih _ _).trans ?_
      simp only [fetchAll, List.foldl_cons, List.foldl_append] at hentries ⊢
      rw [← hentries]
      rfl
    · rfl

/-- A read does to the store what its fetches do. -/
theorem objstoreRead_fetches {s' : Store} {z : ℤ} {bs : List UInt8}
    (h : objstoreRead build s (n + 2) size offset = some (s', z, bs)) :
    s' = { s with dev := fetchAll build s.dev (readFetches build s n size offset) } := by
  have hid : ¬((n : ℤ) + 2 < 2) := by omega
  have hn : ((n : ℤ) + 2 - 2).toNat = n := by omega
  have hdev := readIndirects_dev build (indirect s.objs n) 4 0
    (readPointers build (direct s.objs n) 4 0
      ⟨s.dev, offset / blockSize, totalBlocks size, 0, fun _ _ => 0⟩)
  rw [readPointers_dev, ← fetchAll_append] at hdev
  rw [objstoreRead, if_neg hid] at h
  simp only [hn] at h
  split_ifs at h
  rw [Option.some.injEq, Prod.mk.injEq] at h
  rw [← h.1, readFetches, ← hdev]

lemma pointerFetches_eq (ptr : ℕ → ℤ) (k i offie total : ℕ) :
    pointerFetches ptr k i offie total =
      (List.range' (i + offie) (min total (k - offie))).map ptr := by
  induction k generalizing i offie total with
  | zero => simp [pointerFetches]
  | succ k ih =>
    unfold pointerFetches
    split_ifs with htotal ho
    · rw [ih, show i + 1 + (offie - 1) = i + offie by omega,
        show min total (k - (offie - 1)) = min total (k + 1 - offie) by omega]
    · obtain rfl : offie = 0 := by omega
      rw [ih, show min total (k + 1 - 0) = min (total - 1) (k - 0) + 1 by omega, List.range'_succ,
        List.map_cons]
      rfl
    · rw [show min total (k + 1 - offie) = 0 by omega]
      rfl

/-- What `objstore_read` fetches behind the direct pointers: table `j` (`inl`) before the
entries (`inr`, numbered through all tables) that are read from it. -/
def tablePlan : ℕ → ℕ → ℕ → ℕ → List (ℕ ⊕ ℕ)
  | 0, _, _, _ => []
  | k + 1, j, offie, total =>
    if 0 < total then
      .inl j :: ((List.range' (1024 * j + offie) (min total (1024 - offie))).map .inr ++
        tablePlan k (j + 1) (offie - 1024) (total - min total (1024 - offie)))
    else []

/-- What `objstore_read` fetches for `total` logical blocks from block `p` on: indirect
tables (`inl`) and logical blocks (`inr`). -/
def readPlan (p total : ℕ) : List (ℕ ⊕ ℕ) :=
  (List.range' p (min total (4 - p))).map .inr ++
    (tablePlan 4 0 (p - 4) (total - min total (4 - p))).map (Sum.map id (4 + ·))

lemma filterMap_inr (ys : List ℕ) :
    (ys.map (Sum.inr : ℕ → ℕ ⊕ ℕ)).filterMap Sum.getRight? = ys := by
  rw [List.filterMap_map]
  exact List.filterMap_some

lemma tablePlan_entries (k j offie total : ℕ) :
    (tablePlan k j offie total).filterMap Sum.getRight? =
      List.range' (1024 * j + offie) (min total (1024 * k - offie)) := by
  induction k generalizing j offie total with
  | zero => simp [tablePlan]
  | succ k ih =>
    unfold tablePlan
    split_ifs with htotal
    · rw [List.filterMap_cons_none rfl, List.filterMap_append, filterMap_inr, ih]
      by_cases hlast : total ≤ 1024 - offie
      · rw [show min (total - min total (1024 - offie)) (1024 * k - (offie - 1024)) = 0 by omega,
          show min total (1024 * (k + 1) - offie) = min total (1024 - offie) by omega]
        exact List.append_nil _
      · rw [show 1024 * (j + 1) + (offie - 1024) =
          1024 * j + offie + min total (1024 - offie) by omega, List.range'_append_1]
        congr 1
        omega
    · rw [show min total (1024 * (k + 1) - offie) = 0 by omega]
      rfl

/-- Each logical block of the range is fetched once, in order. -/
theorem readPlan_blocks {p total : ℕ} (hrange : p + total ≤ 4100) :
    (readPlan p total).filterMap Sum.getRight? = List.range' p total := by
  have hshift : ∀ plan : List (ℕ ⊕ ℕ), (plan.map (Sum.map id (4 + ·))).filterMap Sum.getRight? =
      (plan.filterMap Sum.getRight?).map (4 + ·) := by
    intro plan
    rw [List.filterMap_map, List.map_filterMap]
    congr 1
    funext x
    cases x <;> rfl
  rw [readPlan, List.filterMap_append, hshift, tablePlan_entries,
    filterMap_inr, List.map_add_range']
  by_cases hlast : total ≤ 4 - p
  · rw [show min (total - min total (4 - p)) (1024 * 4 - (p - 4)) = 0 by omega,
      show min total (4 - p) = total by omega]
    exact List.append_nil _
  · rw [show 4 + (1024 * 0 + (p - 4)) = p + min total (4 - p) by omega, List.range'_append_1]
    congr 1
    omega

lemma readPlan_block {p total L : ℕ} (hrange : p + total ≤ 4100)
    (h : Sum.inr L ∈ readPlan p total) : p ≤ L ∧ L < p + total := by
  have hmem : L ∈ (readPlan p total).filterMap Sum.getRight? := List.mem_filterMap.mpr ⟨_, h, rfl⟩
  rwa [readPlan_blocks hrange, List.mem_range'_1] at hmem

lemma tablePlan_table {k j offie total i : ℕ} (h : Sum.inl i ∈ tablePlan k j offie total) :
    ∃ t < k, i = j + t ∧ 0 < total ∧ 1024 * t < offie + total := by
  induction k generalizing j offie total with
  | zero => exact absurd h List.not_mem_nil
  | succ k ih =>
    unfold tablePlan at h
    split_ifs at h with htotal
    · rw [List.mem_cons, List.mem_append] at h
      rcases h with hhead | hentry | htail
      · exact ⟨0, by omega, Sum.inl.inj hhead, htotal, by omega⟩
      · simp at hentry
      · obtain ⟨t, ht, hi, hpos, hlt⟩ := ih htail
        exact ⟨t + 1, by omega, by omega, htotal, by omega⟩
    · exact absurd h List.not_mem_nil

lemma readPlan_table {p total j : ℕ} (h : Sum.inl j ∈ readPlan p total) :
    j < 4 ∧ 0 < total ∧ 4 + 1024 * j < p + total := by
  rw [readPlan, List.mem_append] at h
  rcases h with hblock | htable
  · simp at hblock
  · obtain ⟨x, hx, he⟩ := List.mem_map.mp htable
    cases x with
    | inl i =>
      obtain ⟨t, ht, hi, hpos, hlt⟩ := tablePlan_table hx
      have hij : i = j := Sum.inl.inj he
      omega
    | inr y => simp at he

end Traces

section Pointers

lemma readPointers_done (ptr : ℕ → ℤ) (k i : ℕ) {r : ReadState} (h : r.totalBlocks = 0) :
    readPointers build ptr k i r = r := by
  cases k with
  | zero => rfl
  | succ k => rw [readPointers, if_neg (by omega)]

lemma readPointers_offie (ptr : ℕ → ℤ) (k i : ℕ) (r : ReadState) (h : 0 < r.totalBlocks) :
    (readPointers build ptr k i r).offie = r.offie - k := by
  induction k generalizing i r with
  | zero => rfl
  | succ k ih =>
    rw [readPointers, if_pos h, readPointer]
    split_ifs with ho
    · rw [ih _ _ (by exact h)]
      simp only
      omega
    · by_cases hlast : r.totalBlocks - 1 = 0
      · rw [readPointers_done _ _ _ (by exact hlast)]
        simp only
        omega
      · rw [ih _ _ (by simp only; omega)]
        simp only
        omega

/-- One page is fetched. -/
lemma readPointer_loaded {ptr : ℤ} {page : ℕ → Block} {r : ReadState} (hP : P r.dev)
    (ho : r.offie = 0) (hptr : Fetches build P ptr (page 0)) :
    PagesLoaded P page 1 r (readPointer build ptr r) := by
  obtain ⟨hdev, hval⟩ := hptr r.dev hP
  have hstep : readPointer build ptr r = { r with
      dev := (fetch build r.dev ptr).1
      totalBlocks := r.totalBlocks - 1
      iterator := r.iterator + 1
      readArray := Function.update r.readArray r.iterator (page 0) } := by
    rw [readPointer, if_neg (by omega), ← hval]
    rfl
  rw [hstep]
  refine ⟨hdev, rfl, rfl, fun x => ?_⟩
  simp only [Function.update_apply]
  by_cases hx : x = r.iterator
  · rw [if_pos hx, if_pos (by omega), hx, Nat.sub_self]
  · rw [if_neg hx, if_neg (by omega)]

/-- The loop over `k` pointers skips first and then reads until the buffer is full. -/
theorem readPointers_loop (build : Build) (ptr : ℕ → ℤ) (k i : ℕ) (page : ℕ → Block)
    (r : ReadState) (hP : P r.dev)
    (hptr : ∀ x < min r.totalBlocks (k - r.offie),
      Fetches build P (ptr (i + r.offie + x)) (page x)) :
    PagesLoaded P page (min r.totalBlocks (k - r.offie)) r (readPointers build ptr k i r) := by
  induction k generalizing i page r with
  | zero =>
    rw [Nat.zero_sub, Nat.min_zero]
    exact .refl hP
  | succ k ih =>
    by_cases htotal : 0 < r.totalBlocks
    swap
    · rw [readPointers_done _ _ _ (by omega), show min r.totalBlocks (k + 1 - r.offie) = 0 by omega]
      exact .refl hP
    rw [readPointers, if_pos htotal]
    by_cases ho : 0 < r.offie
    · have hskip : readPointer build (ptr i) r = { r with offie := r.offie - 1 } := if_pos ho
      have hcount : min r.totalBlocks (k + 1 - r.offie) =
        min r.totalBlocks (k - (r.offie - 1)) := by
        congr 1
        omega
      rw [hskip, hcount]
      have hnext := ih (i + 1) page { r with offie := r.offie - 1 } hP fun x hx => by
        rw [show i + 1 + (r.offie - 1) + x = i + r.offie + x by omega]
        exact hptr x (by rw [hcount]; exact hx)
      exact ⟨hnext.dev, hnext.total, hnext.iterator, hnext.array⟩
    · have hz : r.offie = 0 := by omega
      have hfirst : PagesLoaded P page 1 r (readPointer build (ptr i) r) := by
        refine readPointer_loaded hP hz ?_
        have hptr₀ := hptr 0 (by omega)
        rwa [hz] at hptr₀
      have hoffie : (readPointer build (ptr i) r).offie = 0 := by
        rw [readPointer, if_neg ho]
        exact hz
      have htot := hfirst.total
      have hnext := ih (i + 1) (fun x => page (1 + x)) (readPointer build (ptr i) r) hfirst.dev
        fun x hx => by
          rw [hoffie, show i + 1 + 0 + x = i + r.offie + (1 + x) by omega]
          exact hptr _ (by omega)
      rw [show min r.totalBlocks (k + 1 - r.offie) = 1 +
        min (readPointer build (ptr i) r).totalBlocks (k - (readPointer build (ptr i) r).offie)
        by omega]
      exact hfirst.trans hnext fun _ _ => rfl

end Pointers

section Indirects

/-- Pointer `y` counted from the first entry of table `j` on. -/
def tableEntry (tab : ℕ → Block) (j y : ℕ) : ℤ := entry (tab (j + y / 1024)) (y % 1024)

lemma tableEntry_zero (tab : ℕ → Block) (j y : ℕ) :
    tableEntry tab 0 (1024 * j + y) = tableEntry tab j y := by
  rw [tableEntry, tableEntry, show 0 + (1024 * j + y) / 1024 = j + y / 1024 by omega,
    Nat.mul_add_mod]

lemma tableEntry_first (tab : ℕ → Block) (j : ℕ) {y : ℕ} (hy : y < 1024) :
    tableEntry tab j y = entry (tab j) (0 + y) := by
  rw [tableEntry, Nat.div_eq_of_lt hy, Nat.mod_eq_of_lt hy, Nat.add_zero, Nat.zero_add]

lemma tableEntry_next (tab : ℕ → Block) (j y : ℕ) :
    tableEntry tab j (1024 + y) = tableEntry tab (j + 1) y := by
  rw [tableEntry, tableEntry, show j + (1024 + y) / 1024 = j + 1 + y / 1024 by omega,
    Nat.add_mod_left]

/-- The pointers fetched from one table, in the plan of all tables. -/
lemma pointerFetches_table {b : Block} {offie total : ℕ} (ind : ℕ → ℤ) (tab : ℕ → Block) (j : ℕ)
    (hb : ∀ x < min total (1024 - offie), entry b (0 + offie + x) = tableEntry tab j (offie + x)) :
    pointerFetches (entry b) 1024 0 offie total =
      ((List.range' (1024 * j + offie) (min total (1024 - offie))).map Sum.inr).map
        (Sum.elim ind (tableEntry tab 0)) := by
  rw [pointerFetches_eq, List.range'_eq_map_range, List.range'_eq_map_range, List.map_map,
    List.map_map, List.map_map]
  refine List.map_congr_left fun x hx => ?_
  have hplace := tableEntry_zero tab j (offie + x)
  rw [← Nat.add_assoc] at hplace
  simp only [Function.comp_apply, Sum.elim_inr, hplace]
  exact hb x (List.mem_range.mp hx)

/-- The loop over the indirect pointers, and what it fetches. Tables skipped as a whole
are only fetched. -/
theorem readIndirects_loop (ind : ℕ → ℤ) (tab : ℕ → Block) (k j : ℕ) (page : ℕ → Block)
    (r : ReadState) (hP : P r.dev)
    (hkeep : ∀ t < k, 0 < r.totalBlocks → 1024 * t < r.offie + r.totalBlocks →
      ∀ d, P d → P (fetch build d (ind (j + t))).1)
    (htab : ∀ x < min r.totalBlocks (1024 * k - r.offie), ∀ d, P d →
      (fetch build d (ind (j + (r.offie + x) / 1024))).2 = tab (j + (r.offie + x) / 1024))
    (hptr : ∀ x < min r.totalBlocks (1024 * k - r.offie),
      Fetches build P (tableEntry tab j (r.offie + x)) (page x)) :
    PagesLoaded P page (min r.totalBlocks (1024 * k - r.offie)) r
        (readIndirects build ind k j r) ∧
      indirectFetches build ind k j r =
        (tablePlan k j r.offie r.totalBlocks).map (Sum.elim ind (tableEntry tab 0)) := by
  induction k generalizing j page r with
  | zero =>
    rw [show min r.totalBlocks (1024 * 0 - r.offie) = 0 by omega]
    exact ⟨.refl hP, rfl⟩
  | succ k ih =>
    by_cases htotal : 0 < r.totalBlocks
    swap
    · rw [readIndirects, indirectFetches, tablePlan, if_neg htotal, if_neg htotal, if_neg htotal,
        show min r.totalBlocks (1024 * (k + 1) - r.offie) = 0 by omega]
      exact ⟨.refl hP, rfl⟩
    -- the entries of this table, as far as the range reaches into it
    have hload : P (fetch build r.dev (ind j)).1 := hkeep 0 (by omega) htotal (by omega) r.dev hP
    have hentry : ∀ x < min r.totalBlocks (1024 - r.offie),
        entry (fetch build r.dev (ind j)).2 (0 + r.offie + x) = tableEntry tab j (r.offie + x) := by
      intro x hx
      have hfetched := htab x (by omega) r.dev hP
      rw [show (r.offie + x) / 1024 = 0 by omega, Nat.add_zero] at hfetched
      rw [tableEntry_first tab j (by omega), hfetched, Nat.add_assoc]
    have hloop := readPointers_loop build (entry (fetch build r.dev (ind j)).2) 1024 0 page
      { r with dev := (fetch build r.dev (ind j)).1 } hload fun x hx => by
        rw [hentry x hx]
        exact hptr x (by simp only at hx; omega)
    have hoffie : (readPointers build (entry (fetch build r.dev (ind j)).2) 1024 0
        { r with dev := (fetch build r.dev (ind j)).1 }).offie = r.offie - 1024 :=
      readPointers_offie _ _ _ _ htotal
    have hstep : readIndirects build ind (k + 1) j r = readIndirects build ind k (j + 1)
        (readPointers build (entry (fetch build r.dev (ind j)).2) 1024 0
          { r with dev := (fetch build r.dev (ind j)).1 }) := by
      rw [readIndirects, if_pos htotal]
      rfl
    rw [hstep, indirectFetches, tablePlan, if_pos htotal, if_pos htotal]
    dsimp only
    rw [pointerFetches_table ind tab j hentry]
    generalize readPointers build (entry (fetch build r.dev (ind j)).2) 1024 0
      { r with dev := (fetch build r.dev (ind j)).1 } = r₁ at hloop hoffie ⊢
    have hfirst : PagesLoaded P page (min r.totalBlocks (1024 - r.offie)) r r₁ :=
      ⟨hloop.dev, hloop.total, hloop.iterator, hloop.array⟩
    have htot := hfirst.total
    -- the tables behind it, counted on from here
    have hplace : ∀ x < min r₁.totalBlocks (1024 * k - r₁.offie),
        min r.totalBlocks (1024 - r.offie) + x < min r.totalBlocks (1024 * (k + 1) - r.offie) ∧
        r.offie + (min r.totalBlocks (1024 - r.offie) + x) = 1024 + (r₁.offie + x) := by
      intro x hx
      omega
    have hrest := ih (j + 1) (fun x => page (min r.totalBlocks (1024 - r.offie) + x)) r₁ hfirst.dev
      (fun t ht _ hlt => by
        have hnext := hkeep (t + 1) (by omega) htotal (by omega)
        rwa [show j + (t + 1) = j + 1 + t by omega] at hnext)
      (fun x hx => by
        obtain ⟨hlt, hsum⟩ := hplace x hx
        have hnext := htab _ hlt
        rwa [hsum, show j + (1024 + (r₁.offie + x)) / 1024 = j + 1 + (r₁.offie + x) / 1024
          by omega] at hnext)
      (fun x hx => by
        obtain ⟨hlt, hsum⟩ := hplace x hx
        rw [← tableEntry_next, ← hsum]
        exact hptr _ hlt)
    rw [show min r.totalBlocks (1024 * (k + 1) - r.offie) = min r.totalBlocks (1024 - r.offie) +
      min r₁.totalBlocks (1024 * k - r₁.offie) by omega]
    refine ⟨hfirst.trans hrest.1 fun _ _ => rfl, ?_⟩
    rw [hrest.2, hoffie, htot, List.map_cons, List.map_append]
    rfl

end Indirects

section Records

/-- The slot of logical block `L`, given what the tables hold. -/
def slotIn (tab : ℕ → Block) (s : Store) (n L : ℕ) : ℤ :=
  if L < 4 then direct s.objs n L else entry (tab ((L - 4) / 1024)) ((L - 4) % 1024)

lemma pageBytes_congr {pages pages' : ℕ → Block} {size : ℕ}
    (h : ∀ i < totalBlocks size, pages i = pages' i) :
    pageBytes pages size = pageBytes pages' size := by
  refine List.map_congr_left fun i hi => ?_
  rw [List.mem_range] at hi
  have hb : i / 4096 < totalBlocks size := by
    rw [totalBlocks_eq]
    split_ifs <;> omega
  rw [h _ hb]

lemma slotIn_lt {tab : ℕ → Block} {L : ℕ} (hL : L < 4) : slotIn tab s n L = direct s.objs n L :=
  if_pos hL

lemma slotIn_add (tab : ℕ → Block) (s : Store) (n y : ℕ) :
    slotIn tab s n (4 + y) = tableEntry tab 0 y := by
  rw [slotIn, if_neg (by omega), tableEntry, Nat.add_sub_cancel_left, Nat.zero_add]

/-- The plan of a read, with the pointers it goes through. -/
lemma readPlan_fetches (tab : ℕ → Block) (s : Store) (n p total : ℕ) :
    (readPlan p total).map (Sum.elim (indirect s.objs n) (slotIn tab s n)) =
      pointerFetches (direct s.objs n) 4 0 p total ++
        (tablePlan 4 0 (p - 4) (total - min total (4 - p))).map
          (Sum.elim (indirect s.objs n) (tableEntry tab 0)) := by
  rw [readPlan, List.map_append, List.map_map, List.map_map, pointerFetches_eq, Nat.zero_add]
  refine congrArg₂ HAppend.hAppend (List.map_congr_left fun L hL => ?_)
    (List.map_congr_left fun x _ => ?_)
  · rw [List.mem_range'_1] at hL
    exact slotIn_lt (by omega)
  · cases x with
    | inl j => simp only [Function.comp_apply, Sum.map_inl, id, Sum.elim_inl]
    | inr y => simp only [Function.comp_apply, Sum.map_inr, Sum.elim_inr, slotIn_add]

/-- A range within the first 4100 logical blocks is read page by page, as planned. -/
theorem objstoreRead_loop (hin : InObjs n) (tab page : ℕ → Block) (hP : P s.dev)
    (hrange : ∀ i < totalBlocks size, offset / blockSize + i < 4100)
    (hkeep : ∀ j < 4, 0 < totalBlocks size → 4 + 1024 * j < offset / blockSize + totalBlocks size →
      ∀ d, P d → P (fetch build d (indirect s.objs n j)).1)
    (htab : ∀ i < totalBlocks size, ¬offset / blockSize + i < 4 → ∀ d, P d →
      (fetch build d (indirect s.objs n ((offset / blockSize + i - 4) / 1024))).2 =
        tab ((offset / blockSize + i - 4) / 1024))
    (hpage : ∀ i < totalBlocks size,
      Fetches build P (slotIn tab s n (offset / blockSize + i)) (page i)) :
    ∃ dev, objstoreRead build s (n + 2) size offset =
        some ({ s with dev := dev }, (size : ℤ), pageBytes page size) ∧ P dev ∧
      readFetches build s n size offset =
        (readPlan (offset / blockSize) (totalBlocks size)).map
          (Sum.elim (indirect s.objs n) (slotIn tab s n)) := by
  have hid : ¬((n : ℤ) + 2 < 2) := by omega
  have hn : ((n : ℤ) + 2 - 2).toNat = n := by omega
  generalize hp : offset / blockSize = p at hrange hkeep htab hpage
  generalize hT : totalBlocks size = T at hrange hkeep htab hpage
  have hfirst := readPointers_loop build (direct s.objs n) 4 0 page
    ⟨s.dev, p, T, 0, fun _ _ => 0⟩ hP fun x hx => by
      simp only at hx
      have hslot := hpage x (by omega)
      rwa [slotIn, if_pos (by omega), ← Nat.zero_add p] at hslot
  have hoffie : 0 < T → (readPointers build (direct s.objs n) 4 0
      ⟨s.dev, p, T, 0, fun _ _ => 0⟩).offie = p - 4 := fun hpos => readPointers_offie _ _ _ _ hpos
  generalize hr : readPointers build (direct s.objs n) 4 0 ⟨s.dev, p, T, 0, fun _ _ => 0⟩ = r
    at hfirst hoffie
  have htotal : r.totalBlocks = T - min T (4 - p) := hfirst.total
  have hiter : r.iterator = min T (4 - p) := by simpa using hfirst.iterator
  -- behind the direct pointers the range goes on among the entries
  have hplace : ∀ x < min r.totalBlocks (1024 * 4 - r.offie),
      min T (4 - p) + x < T ∧ ¬p + (min T (4 - p) + x) < 4 ∧
        p + (min T (4 - p) + x) - 4 = r.offie + x := by
    intro x hx
    have := hoffie (by omega)
    omega
  obtain ⟨hrest, htables⟩ := readIndirects_loop (indirect s.objs n) tab 4 0
    (fun x => page (min T (4 - p) + x)) r hfirst.dev
    (fun j hj hpos hlt => by
      have := hoffie (by omega)
      rw [Nat.zero_add]
      exact hkeep j hj (by omega) (by omega))
    (fun x hx => by
      obtain ⟨hlt, hge, heq⟩ := hplace x hx
      have htable := htab _ hlt hge
      rwa [heq, ← Nat.zero_add ((r.offie + x) / 1024)] at htable)
    (fun x hx => by
      obtain ⟨hlt, hge, heq⟩ := hplace x hx
      have hslot := hpage _ hlt
      rwa [slotIn, if_neg hge, heq, ← Nat.zero_add ((r.offie + x) / 1024)] at hslot)
  refine ⟨(readIndirects build (indirect s.objs n) 4 0 r).dev, ?_, hrest.dev, ?_⟩
  swap
  · rw [readPlan_fetches, readFetches, hp, hT, hr, htables, htotal]
    by_cases hpos : 0 < T
    · rw [hoffie hpos]
    · have hnone : ∀ offie, tablePlan 4 0 offie 0 = [] := fun _ => if_neg (lt_irrefl 0)
      rw [show T - min T (4 - p) = 0 by omega, hnone, hnone]
  have hsum : min T (4 - p) + min r.totalBlocks (1024 * 4 - r.offie) = T := by
    by_cases hpos : 0 < T
    · have := hoffie hpos
      have := hrange (T - 1) (by omega)
      omega
    · omega
  have hall : PagesLoaded P page (min T (4 - p) + min r.totalBlocks (1024 * 4 - r.offie))
      ⟨s.dev, p, T, 0, fun _ _ => 0⟩ (readIndirects build (indirect s.objs n) 4 0 r) :=
    hfirst.trans hrest fun _ _ => rfl
  rw [hsum] at hall
  rw [objstoreRead, if_neg hid]
  simp only [hn, if_pos hin, hp, hT, hr]
  congr 3
  refine pageBytes_congr fun i hi => ?_
  rw [hT] at hi
  rw [hall.array, if_pos (by simpa using hi)]
  rfl

end Records

end OsAssignments
