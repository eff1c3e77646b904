import OsAssignments.PagingInvariant

/-!
# What SHRINK gives back

The loop of SHRINK walks down from `next_free` one page at a time, and each walk may
stop at any level. Over a table that is a tree the pages it passes are cleared one
after the other, each frame once, and the other ways through the table keep their
words.
-/
namespace OsAssignments.Shrinking

open Paging RadixTree PagingInvariant

variable {α : Type} {A : Allocator α} {k : Kernel α} {curr a n : Word} {i j m : ℕ}

section Pages

/-- The page that step `i` of the loop clears. -/
def pageBelow (curr : Word) (i : ℕ) : Word := curr - 4096 * (BitVec.ofNat 64 i + 1)

/-- The indices of the first `n` pages below `curr`, from the top down. -/
def pathsBelow (curr : Word) (n : ℕ) : List (List Index) :=
  (List.range n).map fun i => path (pageBelow curr i)

/-- The addresses that are given back. -/
def GivenBack (curr n a : Word) : Prop :=
  curr.toNat - 4096 * n.toNat ≤ a.toNat ∧ a.toNat < curr.toNat

lemma pageBelow_toNat (h : 4096 * (i + 1) ≤ curr.toNat) :
    (pageBelow curr i).toNat = curr.toNat - 4096 * (i + 1) := by
  unfold pageBelow
  bv_omega

lemma path_pageBelow (hcurr : curr.toNat < 2 ^ 47) (hi : 4096 * (i + 1) ≤ curr.toNat)
    (hj : 4096 * (j + 1) ≤ curr.toNat)
    (h : path (pageBelow curr i) = path (pageBelow curr j)) : i = j := by
  have hi' := pageBelow_toNat hi
  have hj' := pageBelow_toNat hj
  have hsame := samePage_of_path (Or.inl (by omega)) (Or.inl (by omega)) h
  unfold SamePage at hsame
  omega

lemma nodup_pathsBelow (hcurr : curr.toNat < 2 ^ 47) (h : 4096 * m ≤ curr.toNat) :
    (pathsBelow curr m).Nodup := by
  unfold pathsBelow
  apply List.Nodup.map_on _ List.nodup_range
  intro i hi j hj heq
  rw [List.mem_range] at hi hj
  exact path_pageBelow hcurr (by omega) (by omega) heq

lemma mem_pathsBelow (hcurr : curr.toNat < 2 ^ 47) (haligned : Aligned curr)
    (h : 4096 * n.toNat ≤ curr.toNat) (ha : Canonical a) :
    path a ∈ pathsBelow curr n.toNat ↔ GivenBack curr n a := by
  simp only [pathsBelow, List.mem_map, List.mem_range, GivenBack]
  unfold Aligned at haligned
  constructor
  · rintro ⟨i, hi, heq⟩
    have hpage : (pageBelow curr i).toNat = _ := pageBelow_toNat (by omega)
    have hsame := samePage_of_path (Or.inl (by omega)) ha heq
    unfold SamePage at hsame
    omega
  · rintro ⟨hlow, hhigh⟩
    have hpage : (pageBelow curr ((curr.toNat - a.toNat - 1) / 4096)).toNat = _ :=
      pageBelow_toNat (by omega)
    refine ⟨(curr.toNat - a.toNat - 1) / 4096, by omega, path_of_samePage ?_⟩
    unfold SamePage
    omega

lemma exists_of_mem_pathsBelow {q : List Index} (hcurr : curr.toNat < 2 ^ 47)
    (haligned : Aligned curr) (h : 4096 * n.toNat ≤ curr.toNat)
    (hq : q ∈ pathsBelow curr n.toNat) : ∃ a, GivenBack curr n a ∧ path a = q := by
  obtain ⟨i, hi, rfl⟩ := List.mem_map.mp hq
  rw [List.mem_range] at hi
  have hpage : (pageBelow curr i).toNat = _ := pageBelow_toNat (by omega)
  refine ⟨pageBelow curr i, ?_, rfl⟩
  exact (mem_pathsBelow hcurr haligned h (Or.inl (by omega))).mp hq

/-- In a tree different paths lead to different frames. -/
lemma nodup_filterMap {qs : List (List Index)} (htree : IsTree k.tree k.ctx.pgd 4)
    (hnodup : qs.Nodup) (hfull : ∀ q ∈ qs, q.length = 4) : (qs.filterMap k.lookup).Nodup := by
  unfold List.Nodup
  rw [List.pairwise_filterMap]
  apply hnodup.imp_of_mem
  intro p q hp hq hne f hf g hg heq
  subst heq
  exact hne (htree p q f (hfull p hp).le (hfull q hq).le hf hg)

end Pages

section Loop

/-- The loop of SHRINK over a table that is a tree. -/
theorem freePages_cleared (htree : IsTree k.tree k.ctx.pgd 4) (hcurr : curr.toNat < 2 ^ 47)
    (h : 4096 * m ≤ curr.toNat) :
    Cleared A k (freePages A curr k.ctx.pgd m k) (pathsBelow curr m) := by
  induction m with
  | zero => exact ⟨rfl, by simp [pathsBelow], rfl, by simp [pathsBelow], fun _ _ _ => rfl,
      fun _ _ _ _ _ _ => rfl⟩
  | succ m ih =>
    have hrest := ih (by omega)
    have hone := free1_cleared (A := A) (pageBelow curr m) (hrest.isTree htree)
    rw [hrest.ctx] at hone
    have hsnoc : pathsBelow curr (m + 1) = pathsBelow curr m ++ [path (pageBelow curr m)] := by
      simp only [pathsBelow, List.range_succ, List.map_append, List.map_cons, List.map_nil]
    have hnodup := nodup_pathsBelow hcurr h
    rw [hsnoc] at hnodup ⊢
    rw [freePages_succ]
    exact hrest.append hone (List.disjoint_of_nodup_append hnodup)

/-- SHRINK clears the pages between the new and the old `next_free`, gives each of their frames
back once, and leaves the ways to all other pages as they were. -/
theorem shrink_unmaps_given_back (A : Allocator α) (k : Kernel α) (n flag : Word)
    (htree : IsTree k.tree k.ctx.pgd 4)
    (haligned : Aligned (k.ctx.mms (requested flag)).nextFree)
    (hcurr : (k.ctx.mms (requested flag)).nextFree.toNat < 2 ^ 47)
    (hn : (k.ctx.mms (requested flag)).start.toNat + 4096 * n.toNat ≤
      (k.ctx.mms (requested flag)).nextFree.toNat) :
    ∃ (k' : Kernel α) (low : Word) (fs : List Frame),
      sysShrink A n flag k = (k', some low) ∧
      low.toNat = (k.ctx.mms (requested flag)).nextFree.toNat - 4096 * n.toNat ∧
      k'.ctx = (k.setNextFree (requested flag) low).ctx ∧
      (∀ a, GivenBack (k.ctx.mms (requested flag)).nextFree n a → k'.lookup (path a) = none) ∧
      k'.frames = fs.foldl (fun frames f => A.free .user f frames) k.frames ∧ fs.Nodup ∧
      (∀ f, f ∈ fs ↔ ∃ a, GivenBack (k.ctx.mms (requested flag)).nextFree n a ∧
        k.lookup (path a) = some f) ∧
      ∀ b, Canonical b → ¬GivenBack (k.ctx.mms (requested flag)).nextFree n b →
        k'.lookup (path b) = k.lookup (path b) ∧
        ∀ p g j, p ++ [j] <+: path b → k.lookup p = some g → k'.mem g j = k.mem g j := by
  generalize hnf : (k.ctx.mms (requested flag)).nextFree = curr at *
  have hpages := pages_toNat (n := n) (by omega)
  have hlow : (curr - n * 4096).toNat = curr.toNat - 4096 * n.toNat := by bv_omega
  have hc := freePages_cleared (A := A) (m := n.toNat) htree hcurr (by omega)
  have hsmall : ∀ a, GivenBack curr n a → path a ∈ pathsBelow curr n.toNat := by
    intro a ha
    exact (mem_pathsBelow hcurr haligned (by omega) (Or.inl (by have := ha.2; omega))).mpr ha
  refine ⟨(freePages A curr k.ctx.pgd n.toNat k).setNextFree (requested flag) (curr - n * 4096),
    curr - n * 4096, (pathsBelow curr n.toNat).filterMap k.lookup, ?_, hlow, ?_,
    fun a ha => hc.gone _ (hsmall a ha), hc.frames, ?_, fun f => ?_, fun b hb hout => ?_⟩
  · have hstart : ¬curr - n * 4096 < (k.ctx.mms (requested flag)).start := by
      rw [BitVec.not_lt, BitVec.le_def]
      omega
    simp only [sysShrink, hnf, if_neg hstart, hc.ctx]
  · simp only [Kernel.setNextFree, hc.ctx]
  · exact nodup_filterMap htree (nodup_pathsBelow hcurr (by omega)) hc.full
  · rw [List.mem_filterMap]
    constructor
    · rintro ⟨q, hq, hf⟩
      obtain ⟨a, ha, rfl⟩ := exists_of_mem_pathsBelow hcurr haligned (by omega) hq
      exact ⟨a, ha, hf⟩
    · rintro ⟨a, ha, hf⟩
      exact ⟨path a, hsmall a ha, hf⟩
  · have hnot : path b ∉ pathsBelow curr n.toNat := fun hmem =>
      hout ((mem_pathsBelow hcurr haligned (by omega) hb).mp hmem)
    refine ⟨hc.others _ (by simp [path]) hnot, fun p g j hp hg => ?_⟩
    have hlen := prefix_length_lt hp
    apply hc.words p g j hlen hg
    intro hmem
    -- a last entry on the way to `b` is the last one of `b` itself
    rw [hp.eq_of_length (hc.full _ hmem)] at hmem
    exact hnot hmem

/-- RODATA with one page gives it back. -/
theorem shrink_unmaps_rodata_page : ∃ (k' : Kernel (ℕ × List Frame)) (low : Word),
    sysShrink bump 1 0 topGuarded = (k', some low) ∧ low.toNat = 0x140000000 ∧
      k'.lookup (path 0x140000000) = none ∧ ∃ fs : List Frame, 5 ∈ fs ∧ fs.Nodup ∧
        k'.frames = fs.foldl (fun frames f => bump.free .user f frames) topGuarded.frames := by
  have hgiven : GivenBack (topGuarded.ctx.mms (requested 0)).nextFree 1 0x140000000 := by
    unfold GivenBack
    decide
  obtain ⟨k', low, fs, hret, hlow, -, hgone, hframes, hnodup, hmem, -⟩ :=
    shrink_unmaps_given_back bump topGuarded 1 0 topGuarded_table.tree
      (by unfold Aligned; decide) (by decide) (by decide)
  have hpage : (5 : Frame) ∈ fs := (hmem 5).mpr ⟨_, hgiven, by decide⟩
  exact ⟨k', low, hret, hlow, hgone _ hgiven, fs, hpage, hnodup, hframes⟩

end Loop

end OsAssignments.Shrinking
