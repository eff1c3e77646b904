import Mathlib.Logic.ExistsUnique
import Mathlib.Tactic

/-!
# References that own blocks

A family of references, each empty or pointing to a block, against the set of
blocks marked as used. In a ledger no block has two references and every
referenced block is marked; a strict ledger has a reference for every marked
block as well, so nothing leaks. Attaching a fresh block to a reference and
releasing the blocks of a set of references keep both kinds.
-/
namespace OsAssignments

variable {R : Type*}

structure Ledger (strict : Prop) (val : R → Option ℕ) (used : ℕ → Prop) : Prop where
  inj : ∀ r r' b, val r = some b → val r' = some b → r = r'
  marked : ∀ r b, val r = some b → used b
  owned : strict → ∀ b, used b → ∃ r, val r = some b

namespace Ledger

variable {strict : Prop} {val val' : R → Option ℕ} {used used' : ℕ → Prop} {r : R} {b : ℕ}

theorem congr_used (h : Ledger strict val used) (hu : ∀ x, used' x ↔ used x) :
    Ledger strict val used' :=
  ⟨h.inj, fun r b hr => (hu b).mpr (h.marked r b hr), fun hs b hb => h.owned hs b ((hu b).mp hb)⟩

/-- In a strict ledger the mark of a block counts its references. -/
theorem used_iff (h : Ledger True val used) (b : ℕ) : used b ↔ ∃! r, val r = some b := by
  constructor
  · intro hb
    obtain ⟨r, hr⟩ := h.owned trivial b hb
    exact ⟨r, hr, fun r' hr' => h.inj r' r b hr' hr⟩
  · rintro ⟨r, hr, _⟩
    exact h.marked r b hr

/-- In a strict ledger there are as many marked blocks as references in use, counted by an index
of the references. -/
theorem card_eq {ι : Type*} (h : Ledger True val used) {S : Finset ι} {U : Finset ℕ} (ref : ι → R)
    (hinj : Set.InjOn ref S) (hS : ∀ r, (val r).isSome ↔ ∃ x ∈ S, ref x = r)
    (hU : ∀ b, b ∈ U ↔ used b) : S.card = U.card := by
  have hval : ∀ x ∈ S, ∃ b, val (ref x) = some b := fun x hx =>
    Option.isSome_iff_exists.mp ((hS (ref x)).mpr ⟨x, hx, rfl⟩)
  choose! block hblock using hval
  refine Finset.card_bij (fun x _ => block x) (fun x hx => ?_) (fun x hx y hy heq => ?_)
    fun b hb => ?_
  · exact (hU _).mpr (h.marked _ _ (hblock x hx))
  · have hsame : val (ref y) = some (block x) := heq ▸ hblock y hy
    exact hinj hx hy (h.inj _ _ _ (hblock x hx) hsame)
  · obtain ⟨r, hr⟩ := h.owned trivial b ((hU b).mp hb)
    obtain ⟨x, hx, rfl⟩ := (hS r).mp (by rw [hr]; rfl)
    have hsame := hblock x hx
    rw [hr, Option.some.injEq] at hsame
    exact ⟨x, hx, hsame.symm⟩

/-- A fresh block attached to one reference. A strict ledger would lose the block
the reference had before, so there it must be empty. -/
theorem attach (h : Ledger strict val used) (hb : ¬used b) (hempty : strict → val r = none)
    (hr : val' r = some b) (hother : ∀ q, q ≠ r → val' q = val q)
    (hused : ∀ x, used' x ↔ used x ∨ x = b) : Ledger strict val' used' := by
  have hsame : ∀ q x, val' q = some x → q = r ∧ x = b ∨ q ≠ r ∧ val q = some x := by
    intro q x hq
    by_cases hqr : q = r
    · subst hqr
      rw [hr, Option.some.injEq] at hq
      exact Or.inl ⟨rfl, hq.symm⟩
    · exact Or.inr ⟨hqr, by rwa [hother q hqr] at hq⟩
  refine ⟨fun q q' x hq hq' => ?_, fun q x hq => ?_, fun hs x hx => ?_⟩
  · rcases hsame q x hq with ⟨rfl, rfl⟩ | ⟨_, hq⟩ <;>
      rcases hsame q' _ hq' with ⟨hq', hx'⟩ | ⟨_, hq'⟩
    · exact hq'.symm
    · exact absurd (h.marked q' _ hq') hb
    · exact absurd (h.marked q x hq) (hx' ▸ hb)
    · exact h.inj q q' x hq hq'
  · rcases hsame q x hq with ⟨_, hx⟩ | ⟨_, hq⟩
    · exact (hused x).mpr (Or.inr hx)
    · exact (hused x).mpr (Or.inl (h.marked q x hq))
  · rcases (hused x).mp hx with hx | rfl
    · obtain ⟨q, hq⟩ := h.owned hs x hx
      have hne : q ≠ r := by
        rintro rfl
        rw [hempty hs] at hq
        contradiction
      exact ⟨q, by rw [hother q hne, hq]⟩
    · exact ⟨r, hr⟩

/-- The block of one reference given back. -/
theorem release (h : Ledger strict val used) (hr : val r = some b) (hr' : val' r = none)
    (hother : ∀ q, q ≠ r → val' q = val q) (hused : ∀ x, used' x ↔ used x ∧ x ≠ b) :
    Ledger strict val' used' := by
  have hlive : ∀ q x, val' q = some x → q ≠ r ∧ val q = some x := by
    intro q x hq
    have hne : q ≠ r := by
      rintro rfl
      rw [hr'] at hq
      contradiction
    exact ⟨hne, by rwa [hother q hne] at hq⟩
  refine ⟨fun q q' x hq hq' => h.inj q q' x (hlive q x hq).2 (hlive q' x hq').2, fun q x hq => ?_,
    fun hs x hx => ?_⟩
  · obtain ⟨hne, hv⟩ := hlive q x hq
    refine (hused x).mpr ⟨h.marked q x hv, ?_⟩
    rintro rfl
    exact hne (h.inj q r x hv hr)
  · obtain ⟨hx, hne⟩ := (hused x).mp hx
    obtain ⟨q, hq⟩ := h.owned hs x hx
    have hqr : q ≠ r := by
      rintro rfl
      rw [hr, Option.some.injEq] at hq
      exact hne hq.symm
    exact ⟨q, by rw [hother q hqr, hq]⟩

end Ledger

end OsAssignments
