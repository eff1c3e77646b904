import OsAssignments.RadixTree

/-!
# Tables by paths

The purpose of a tree of tables: behind each path that has been entered stands a
table or a page, with a flag. A table is entered by marking its path; marks on one
path keep the flags of the earlier ones.
-/
namespace OsAssignments.PathTables

variable {F ι : Type*}

/-- What stands behind each path, and whether it is flagged. -/
abbrev PathTable (F ι : Type*) := List ι → Option (F × Bool)

/-- The table or page behind a path; the root stands behind the empty one. -/
def frameAt (r : F) (T : PathTable F ι) (p : List ι) : Option F :=
  if p.isEmpty then some r else (T p).map Prod.fst

/-- The flag of a path. -/
def flagged (T : PathTable F ι) (q : List ι) : Bool := (T q).any Prod.snd

section Frames

variable {r f : F} {T T' : PathTable F ι} {p q : List ι} {i : ι}

lemma frameAt_nil : frameAt r T [] = some r := rfl

lemma frameAt_snoc : frameAt r T (p ++ [i]) = (T (p ++ [i])).map Prod.fst :=
  if_neg (by simp)

lemma frameAt_congr (h : p = [] ∨ (T' p).map Prod.fst = (T p).map Prod.fst) :
    frameAt r T' p = frameAt r T p := by
  rcases h with rfl | h
  · rfl
  · rw [frameAt, frameAt, h]

end Frames

section Marks

variable [DecidableEq ι] {r f g : F} {T : PathTable F ι} {p q : List ι} {c : Bool}

/-- A path is entered, or flagged once more. -/
def mark (T : PathTable F ι) (q : List ι) (f : F) (c : Bool) : PathTable F ι :=
  Function.update T q (some (f, flagged T q || c))

lemma mark_self : mark T q f c q = some (f, flagged T q || c) := Function.update_self q _ T

lemma mark_of_ne (h : p ≠ q) : mark T q f c p = T p := Function.update_of_ne h _ T

lemma frameAt_mark_self (hq : q ≠ []) : frameAt r (mark T q f c) q = some f := by
  rw [frameAt, if_neg (by simpa using hq), mark_self, Option.map_some]

lemma frameAt_mark_of_ne (h : p ≠ q) : frameAt r (mark T q f c) p = frameAt r T p :=
  frameAt_congr (Or.inr (by rw [mark_of_ne h]))

/-- No flag more changes nothing. -/
lemma mark_unflagged (h : T q = some (f, c)) : mark T q f false = T := by
  rw [mark, flagged, h, Option.any_some, Bool.or_false, ← h]
  exact Function.update_eq_self q T

lemma of_mark_eq_none (h : mark T q f c p = none) : p ≠ q ∧ T p = none := by
  have hne : p ≠ q := by
    rintro rfl
    rw [mark_self] at h
    cases h
  rw [mark_of_ne hne] at h
  exact ⟨hne, h⟩

@[simp] lemma isSome_mark : (mark T q f c p).isSome ↔ p = q ∨ (T p).isSome := by
  by_cases h : p = q
  · simp [h, mark_self]
  · simp [h, mark_of_ne h]

@[simp] lemma flagged_mark : flagged (mark T q f c) p ↔ p = q ∧ c ∨ flagged T p := by
  by_cases h : p = q
  · subst h
    simp [flagged, mark_self, or_comm]
  · simp [flagged, h, mark_of_ne h]

end Marks

section Paths

variable [DecidableEq ι] {f g f₁ f₂ f₃ : F} {T T' : PathTable F ι} {p q : List ι} {a b c d : ι}
variable {w : List ι → Bool}

omit [DecidableEq ι] in
/-- The four steps of a path. -/
lemma isPrefix_four : q ≠ [] ∧ q <+: [a, b, c, d] ↔
    q = [a] ∨ q = [a, b] ∨ q = [a, b, c] ∨ q = [a, b, c, d] := by
  have hfour : [a, b, c, d] = [a, b, c] ++ [d] ∧ [a, b, c] = [a, b] ++ [c] ∧ [a, b] = [a] ++ [b] ∧
      [a] = [] ++ [a] := ⟨rfl, rfl, rfl, rfl⟩
  rw [hfour.1, List.prefix_concat_iff, hfour.2.1, List.prefix_concat_iff, hfour.2.2.1,
    List.prefix_concat_iff, hfour.2.2.2, List.prefix_concat_iff, List.prefix_nil]
  simp only [List.nil_append, List.cons_append]
  constructor
  · tauto
  · rintro (rfl | rfl | rfl | rfl) <;> simp

/-- One more path is entered, with flags `w` on its way. -/
structure Entered (T T' : PathTable F ι) (π : List ι) (w : List ι → Bool) (f : F) : Prop where
  isSome : ∀ q, (T' q).isSome ↔ q ≠ [] ∧ q <+: π ∨ (T q).isSome
  flagged : ∀ q, flagged T' q ↔ (q ≠ [] ∧ q <+: π) ∧ w q ∨ flagged T q
  page : (T' π).map Prod.fst = some f
  kept : ∀ q, ¬q <+: π → T' q = T q

/-- Four marks, one table after the other and then the page. -/
theorem entered_four : Entered T
    (mark (mark (mark (mark T [a] f₁ (w [a])) [a, b] f₂ (w [a, b])) [a, b, c] f₃ (w [a, b, c]))
      [a, b, c, d] f (w [a, b, c, d])) [a, b, c, d] w f := by
  refine ⟨fun q => ?_, fun q => ?_, ?_, fun q hq => ?_⟩
  · simp only [isSome_mark, isPrefix_four]
    tauto
  · simp only [flagged_mark, isPrefix_four]
    constructor
    · rintro (⟨rfl, hw⟩ | ⟨rfl, hw⟩ | ⟨rfl, hw⟩ | ⟨rfl, hw⟩ | h)
      · exact Or.inl ⟨by simp, hw⟩
      · exact Or.inl ⟨by simp, hw⟩
      · exact Or.inl ⟨by simp, hw⟩
      · exact Or.inl ⟨by simp, hw⟩
      · tauto
    · rintro (⟨rfl | rfl | rfl | rfl, hw⟩ | h) <;> tauto
  · rw [mark_self, Option.map_some]
  · have hne := isPrefix_four.not.mp fun h => hq h.2
    push Not at hne
    rw [mark_of_ne hne.2.2.2, mark_of_ne hne.2.2.1, mark_of_ne hne.2.1, mark_of_ne hne.1]

end Paths

end OsAssignments.PathTables
