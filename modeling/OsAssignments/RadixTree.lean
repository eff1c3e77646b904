import Mathlib.Data.List.Basic
import Mathlib.Tactic

/-!
# Trees of tables

A table maps indices to further tables. Paths of indices lead from a root to the
tables below it; the tables form a tree when no two paths of bounded length lead
to the same one. A single entry is given to a fresh table or taken away, and all
other paths lead where they led before. Marks on the entries of a path are read
together.
-/
namespace OsAssignments.RadixTree

variable {F ι : Type*} {next next' : F → ι → Option F} {r f g : F} {p q : List ι} {i : ι} {n : ℕ}

section Paths

/-- The table a path of indices leads to. -/
def follow (next : F → ι → Option F) : F → List ι → Option F
  | f, [] => some f
  | f, i :: p => (next f i).bind fun g => follow next g p

lemma follow_snoc : follow next r (p ++ [i]) = (follow next r p).bind fun f => next f i := by
  induction p generalizing r with
  | nil => simp only [List.nil_append, follow, Option.bind_fun_some, Option.bind_some]
  | cons j p ih => simp only [List.cons_append, follow, ih, Option.bind_assoc]

lemma follow_snoc_of (h : follow next r p = some f) : follow next r (p ++ [i]) = next f i := by
  rw [follow_snoc, h, Option.bind_some]

/-- A path that leads somewhere has only prefixes that lead somewhere. -/
lemma exists_follow_of_isPrefix (hpq : p <+: q) (h : follow next r q = some f) :
    ∃ g, follow next r p = some g := by
  obtain ⟨t, rfl⟩ := hpq
  induction t using List.reverseRecOn generalizing f with
  | nil => exact ⟨f, by rwa [List.append_nil] at h⟩
  | append_singleton t i ih =>
    rw [← List.append_assoc, follow_snoc, Option.bind_eq_some_iff] at h
    obtain ⟨g, hg, -⟩ := h
    exact ih hg

/-- Paths lead where they led when the tables on the way are the same. -/
lemma follow_congr (h : ∀ p f, p.length < n → follow next r p = some f → next' f = next f)
    (hq : q.length ≤ n) : follow next' r q = follow next r q := by
  induction q using List.reverseRecOn with
  | nil => rfl
  | append_singleton q i ih =>
    rw [List.length_append, List.length_singleton] at hq
    rw [follow_snoc, follow_snoc, ih (by omega)]
    cases hf : follow next r q with
    | none => rfl
    | some f => simp only [Option.bind_some, h q f (by omega) hf]

/-- A path leads where it led when the entries on the way are the same. -/
lemma follow_congr_along
    (h : ∀ p f i, p ++ [i] <+: q → follow next r p = some f → next' f i = next f i)
    (hp : p <+: q) : follow next' r p = follow next r p := by
  induction p using List.reverseRecOn with
  | nil => rfl
  | append_singleton p i ih =>
    rw [follow_snoc, follow_snoc, ih ((List.prefix_append p [i]).trans hp)]
    cases hf : follow next r p with
    | none => rfl
    | some f => rw [Option.bind_some, Option.bind_some, h p f i hp hf]

/-- Paths through fewer entries lead where they led. -/
lemma follow_mono (h : ∀ f i g, next f i = some g → next' f i = some g)
    (hf : follow next r q = some f) : follow next' r q = some f := by
  induction q using List.reverseRecOn generalizing f with
  | nil => exact hf
  | append_singleton q i ih =>
    rw [follow_snoc, Option.bind_eq_some_iff] at hf ⊢
    obtain ⟨g, hg, hgf⟩ := hf
    exact ⟨g, ih hg, h g i f hgf⟩

/-- No two paths of at most `n` indices lead from `r` to one table. -/
def IsTree (next : F → ι → Option F) (r : F) (n : ℕ) : Prop :=
  ∀ p q f, p.length ≤ n → q.length ≤ n →
    follow next r p = some f → follow next r q = some f → p = q

/-- Some path of at most `n` indices leads from `r` to `f`. -/
def Reached (next : F → ι → Option F) (r : F) (n : ℕ) (f : F) : Prop :=
  ∃ p : List ι, p.length ≤ n ∧ follow next r p = some f

/-- Labels that grow along entries tell the path to a table. -/
lemma follow_label {lab : F → List ι} (h : ∀ f i g, next f i = some g → lab g = lab f ++ [i])
    (hp : follow next r p = some f) : lab f = lab r ++ p := by
  induction p using List.reverseRecOn generalizing f with
  | nil =>
    cases hp
    exact (List.append_nil _).symm
  | append_singleton p i ih =>
    rw [follow_snoc, Option.bind_eq_some_iff] at hp
    obtain ⟨g, hg, hnext⟩ := hp
    rw [h g i f hnext, ih hg, List.append_assoc]

/-- Tables labelled with the path to them form a tree. -/
theorem isTree_of_label (lab : F → List ι)
    (h : ∀ f i g, next f i = some g → lab g = lab f ++ [i]) : IsTree next r n :=
  fun _ _ _ _ _ hp hq => List.append_cancel_left
    ((follow_label h hp).symm.trans (follow_label h hq))

end Paths

section Entries

variable [DecidableEq ι]

/-- In the tables that paths of fewer than `n` indices lead to, `next'` is `next` but for the
entry `i` of `f`. -/
def OnlyEntry (next next' : F → ι → Option F) (r : F) (n : ℕ) (f : F) (i : ι) : Prop :=
  ∀ (p : List ι) (g : F) (j : ι), p.length < n → follow next r p = some g →
    ¬(g = f ∧ j = i) → next' g j = next g j

/-- The path `p` leads to `o` now, and the other paths of at most `n` indices where they led. -/
def Redirected (next next' : F → ι → Option F) (r : F) (n : ℕ) (p : List ι) (o : Option F) : Prop :=
  ∀ q : List ι, q.length ≤ n → follow next' r q = if q = p then o else follow next r q

/-- An entry of a tree is changed that is either a last one, or had nothing behind it and
has nothing but an empty table behind it now. -/
theorem OnlyEntry.redirected (h : OnlyEntry next next' r n f i) (htree : IsTree next r n)
    (hp : follow next r p = some f) (hn : p.length < n)
    (hlast : p.length + 1 = n ∨
      next f i = none ∧ ∀ g, next' f i = some g → ∀ j, next' g j = none) :
    Redirected next next' r n (p ++ [i]) (next' f i) := by
  intro q hq
  induction q using List.reverseRecOn with
  | nil => rw [if_neg (by simp)]; rfl
  | append_singleton q j ih =>
    rw [List.length_append, List.length_singleton] at hq
    have hrest := ih (by omega)
    rw [follow_snoc, hrest]
    by_cases hqp : q = p ++ [i]
    · subst hqp
      rw [List.length_append, List.length_singleton] at hq
      obtain ⟨hnone, hbare⟩ := hlast.resolve_left (by omega)
      rw [if_pos rfl, if_neg (by simp), follow_snoc, follow_snoc_of hp, hnone, Option.bind_none]
      cases hnext : next' f i with
      | none => rfl
      | some g => exact hbare g hnext j
    · rw [if_neg hqp, follow_snoc]
      cases hf : follow next r q with
      | none =>
        rw [if_neg]
        · rfl
        · intro heq
          obtain ⟨rfl, -⟩ := List.append_inj' heq rfl
          rw [hp] at hf
          cases hf
      | some g =>
        by_cases hedge : g = f ∧ j = i
        · obtain ⟨rfl, rfl⟩ := hedge
          rw [htree q p g (by omega) hn.le hf hp, if_pos rfl, Option.bind_some]
        · rw [if_neg, Option.bind_some, Option.bind_some, h q g j (by omega) hf hedge]
          intro heq
          obtain ⟨rfl, hji⟩ := List.append_inj' heq rfl
          rw [hp, Option.some.injEq] at hf
          exact hedge ⟨hf.symm, List.singleton_injective hji⟩

namespace Redirected

variable {o : Option F} (h : Redirected next next' r n p o)
include h

lemma self (hp : p.length ≤ n) : follow next' r p = o := by rw [h p hp, if_pos rfl]

lemma other (hq : q.length ≤ n) (hne : q ≠ p) : follow next' r q = follow next r q := by
  rw [h q hq, if_neg hne]

/-- A path that is not cut keeps leading where it led. -/
lemma kept (hq : q.length ≤ n) (hnone : follow next r p = none) (hf : follow next r q = some f) :
    follow next' r q = some f := by
  rw [h.other hq, hf]
  rintro rfl
  rw [hnone] at hf
  cases hf

lemma reached (hf : Reached next' r n f) : Reached next r n f ∨ o = some f := by
  obtain ⟨q, hq, hf⟩ := hf
  rw [h q hq] at hf
  split_ifs at hf with heq
  · exact Or.inr hf
  · exact Or.inl ⟨q, hq, hf⟩

/-- A tree stays a tree when the new table was not in it. -/
theorem isTree (htree : IsTree next r n) (hfresh : ∀ g, o = some g → ¬Reached next r n g) :
    IsTree next' r n := by
  intro q q' f hq hq' hf hf'
  rw [h q hq] at hf
  rw [h q' hq'] at hf'
  split_ifs at hf hf' with heq heq' heq'
  · exact heq.trans heq'.symm
  · exact absurd ⟨q', hq', hf'⟩ (hfresh f hf)
  · exact absurd ⟨q, hq, hf⟩ (hfresh f hf')
  · exact htree q q' f hq hq' hf hf'

end Redirected

end Entries

section Marks

variable {mark mark' : F → ι → Prop}

/-- Every entry of a path is marked. -/
def AllAlong (mark : F → ι → Prop) (next : F → ι → Option F) : F → List ι → Prop
  | _, [] => True
  | f, i :: p => mark f i ∧ ∀ g, next f i = some g → AllAlong mark next g p

instance AllAlong.decidable [∀ f i, Decidable (mark f i)] :
    ∀ (f : F) (p : List ι), Decidable (AllAlong mark next f p)
  | _, [] => isTrue trivial
  | f, i :: p =>
    have : Decidable (∀ g, next f i = some g → AllAlong mark next g p) :=
      match next f i with
      | none => isTrue nofun
      | some g =>
        have := AllAlong.decidable g p
        decidable_of_iff (AllAlong mark next g p)
          ⟨fun h _ hg => Option.some.inj hg ▸ h, fun h => h g rfl⟩
    inferInstanceAs (Decidable (_ ∧ _))

lemma allAlong_snoc : AllAlong mark next r (p ++ [i]) ↔
    AllAlong mark next r p ∧ ∀ f, follow next r p = some f → mark f i := by
  induction p generalizing r with
  | nil => simp [AllAlong, follow]
  | cons j p ih =>
    simp only [List.cons_append, AllAlong, follow, ih, Option.bind_eq_some_iff]
    constructor
    · rintro ⟨hj, hrest⟩
      exact ⟨⟨hj, fun g hg => (hrest g hg).1⟩, fun f ⟨g, hg, hf⟩ => (hrest g hg).2 f hf⟩
    · rintro ⟨⟨hj, hrest⟩, hlast⟩
      exact ⟨hj, fun g hg => ⟨hrest g hg, fun f hf => hlast f ⟨g, hg, hf⟩⟩⟩

lemma allAlong_and : AllAlong (fun f i => mark f i ∧ mark' f i) next r q ↔
    AllAlong mark next r q ∧ AllAlong mark' next r q := by
  induction q generalizing r with
  | nil => simp [AllAlong]
  | cons i q ih =>
    simp only [AllAlong, ih]
    constructor
    · rintro ⟨⟨h, h'⟩, hrest⟩
      exact ⟨⟨h, fun g hg => (hrest g hg).1⟩, h', fun g hg => (hrest g hg).2⟩
    · rintro ⟨⟨h, hrest⟩, h', hrest'⟩
      exact ⟨⟨h, h'⟩, fun g hg => ⟨hrest g hg, hrest' g hg⟩⟩

/-- Marks that are only added keep a path marked, as long as its prefixes lead where they led. -/
theorem AllAlong.mono (h : AllAlong mark next r q)
    (hfollow : ∀ p f, p <+: q → follow next r p = some f → follow next' r p = some f)
    (hmark : ∀ p f i, p ++ [i] <+: q → follow next r p = some f → mark f i → mark' f i)
    (hq : follow next r q = some g) : AllAlong mark' next' r q := by
  induction q using List.reverseRecOn generalizing g with
  | nil => trivial
  | append_singleton q i ih =>
    rw [allAlong_snoc] at h ⊢
    rw [follow_snoc, Option.bind_eq_some_iff] at hq
    obtain ⟨f, hf, -⟩ := hq
    have hpre : q <+: q ++ [i] := List.prefix_append q [i]
    refine ⟨ih h.1 (fun p f hp => hfollow p f (hp.trans hpre))
      (fun p f j hp => hmark p f j (hp.trans hpre)) hf, fun f' hf' => ?_⟩
    rw [hfollow q f hpre hf, Option.some.injEq] at hf'
    exact hf' ▸ hmark q f i (List.prefix_refl _) hf (h.2 f hf)

end Marks

end OsAssignments.RadixTree
