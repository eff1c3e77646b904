import Mathlib.Algebra.BigOperators.Group.Finset.Basic
import Mathlib.Algebra.Order.BigOperators.Group.Finset
import Mathlib.Tactic

/-!
# Taking turns

A list of turns in which each turn is closer to one participant than the turn before, until
that participant has its own. Then nobody has more than one turn more than it has.
-/
namespace OsAssignments.TurnTaking

variable {ι : Type*} {μ : ι → ℕ} {p a b q : ι} {l : List ι}

/-- From the turn of `a` to that of `b` it comes closer to `p`, or one of them is `p` itself. -/
def Closer (μ : ι → ℕ) (p a b : ι) : Prop := a = p ∨ b = p ∨ μ b < μ a

lemma Closer.of_lt (h : μ b < μ a) : Closer μ p a b := Or.inr (Or.inr h)

variable [DecidableEq ι]

/-- Whoever is still to come before `p` can have one turn more than `p`. -/
theorem count_le_add (h : List.IsChain (Closer μ p) (a :: l)) (q : ι) :
    l.count q ≤ l.count p + if a = p ∨ μ q < μ a then 1 else 0 := by
  induction l generalizing a with
  | nil => simp
  | cons b l ih =>
    obtain ⟨hab, hrest⟩ := List.isChain_cons_cons.mp h
    have hl := ih hrest
    by_cases hb : b = p
    · subst hb
      rw [if_pos (Or.inl rfl)] at hl
      by_cases hq : b = q
      · rw [hq]
        exact Nat.le_add_right _ _
      · rw [List.count_cons_of_ne hq, List.count_cons_self]
        exact hl.trans (Nat.le_add_right _ _)
    rw [List.count_cons_of_ne hb]
    by_cases hq : b = q
    · subst hq
      have hstep : a = p ∨ μ b < μ a := hab.imp_right fun h => h.resolve_left hb
      rw [if_neg fun h => h.elim hb (lt_irrefl _)] at hl
      rw [List.count_cons_self, if_pos hstep]
      omega
    · rw [List.count_cons_of_ne hq]
      refine hl.trans (Nat.add_le_add_left ?_ _)
      split_ifs with hbefore hnot
      · exact le_rfl
      · have hlt := hbefore.resolve_left hb
        rcases hab with ha | hb' | hba
        · exact absurd (Or.inl ha) hnot
        · exact absurd hb' hb
        · exact absurd (Or.inr (hlt.trans hba)) hnot
      · exact Nat.zero_le _
      · exact le_rfl

theorem count_le (h : List.IsChain (Closer μ p) (a :: l)) (q : ι) :
    l.count q ≤ l.count p + 1 := by
  refine (count_le_add h q).trans (Nat.add_le_add_left ?_ _)
  split_ifs <;> omega

/-- All turns together. -/
theorem length_le (h : List.IsChain (Closer μ p) (a :: l)) :
    l.length ≤ l.toFinset.card * (l.count p + 1) := by
  calc l.length = ∑ q ∈ l.toFinset, l.count q := (List.sum_toFinset_count_eq_length l).symm
    _ ≤ l.toFinset.card • (l.count p + 1) :=
      Finset.sum_le_card_nsmul _ _ _ fun q _ => count_le h q
    _ = l.toFinset.card * (l.count p + 1) := smul_eq_mul _ _

end OsAssignments.TurnTaking
