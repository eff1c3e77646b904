import Mathlib.Logic.Basic
import Mathlib.Tactic

/-!
# Runs of a machine

A machine answers each event in one step, which may have no result: the program
it models leaves its memory or never returns. A run answers a list of events.
`Along` says that a condition on events and states holds at every step of a run.
-/
namespace OsAssignments.Machine

variable {σ τ ε ρ : Type*}

section Runs

variable (step : σ → ε → Option (σ × ρ))

/-- Answer events one after the other; the replies come in order. -/
def run : σ → List ε → Option (σ × List ρ)
  | s, [] => some (s, [])
  | s, e :: es => (step s e).bind fun x => (run x.1 es).map fun y => (y.1, x.2 :: y.2)

/-- Every event of a run meets a condition on the state it finds. -/
def Along (P : σ → ε → Prop) : σ → List ε → Prop
  | _, [] => True
  | s, e :: es => P s e ∧ ∀ s' r, step s e = some (s', r) → Along P s' es

variable {step}

/-- A condition that can be decided at every step can be decided along a run. -/
def decidableAlong {P : σ → ε → Prop} [∀ s e, Decidable (P s e)] :
    ∀ s es, Decidable (Along step P s es)
  | _, [] => isTrue trivial
  | s, e :: es =>
    match hstep : step s e with
    | none => decidable_of_iff (P s e) ⟨fun h => ⟨h, by simp [hstep]⟩, And.left⟩
    | some (s', r) =>
      have : Decidable (Along step P s' es) := decidableAlong s' es
      decidable_of_iff (P s e ∧ Along step P s' es)
        ⟨fun h => ⟨h.1, by simpa [hstep] using h.2⟩, fun h => ⟨h.1, h.2 s' r hstep⟩⟩

instance {P : σ → ε → Prop} [∀ s e, Decidable (P s e)] (s : σ) (es : List ε) :
    Decidable (Along step P s es) :=
  decidableAlong s es

theorem run_cons {s s'' : σ} {e : ε} {es : List ε} {rs : List ρ} :
    run step s (e :: es) = some (s'', rs) ↔
      ∃ s' r rs', step s e = some (s', r) ∧ run step s' es = some (s'', rs') ∧ rs = r :: rs' := by
  simp only [run, Option.bind_eq_some_iff, Option.map_eq_some_iff, Prod.exists, Prod.mk.injEq]
  constructor
  · rintro ⟨s', r, hstep, s₂, rs', hrun, rfl, rfl⟩
    exact ⟨s', r, rs', hstep, hrun, rfl⟩
  · rintro ⟨s', r, rs', hstep, hrun, rfl⟩
    exact ⟨s', r, hstep, s'', rs', hrun, rfl, rfl⟩

/-- Every event has its reply. -/
theorem run_length {s s' : σ} {es : List ε} {rs : List ρ} (h : run step s es = some (s', rs)) :
    rs.length = es.length := by
  induction es generalizing s rs with
  | nil =>
    cases h
    rfl
  | cons e es ih =>
    obtain ⟨s₁, r, rs', -, hrun, rfl⟩ := run_cons.mp h
    rw [List.length_cons, List.length_cons, ih hrun]

theorem run_append {s s'' : σ} {es es' : List ε} {rs : List ρ} :
    run step s (es ++ es') = some (s'', rs) ↔
      ∃ s' rs₁ rs₂, run step s es = some (s', rs₁) ∧ run step s' es' = some (s'', rs₂) ∧
        rs = rs₁ ++ rs₂ := by
  induction es generalizing s rs with
  | nil =>
    constructor
    · intro h
      exact ⟨s, [], rs, rfl, h, rfl⟩
    · rintro ⟨s', rs₁, rs₂, h₁, h₂, rfl⟩
      cases h₁
      exact h₂
  | cons e es ih =>
    simp only [List.cons_append, run_cons, ih]
    constructor
    · rintro ⟨s₁, r, _, hstep, ⟨s', rs₁, rs₂, h₁, h₂, rfl⟩, rfl⟩
      exact ⟨s', r :: rs₁, rs₂, ⟨s₁, r, rs₁, hstep, h₁, rfl⟩, h₂, rfl⟩
    · rintro ⟨s', _, rs₂, ⟨s₁, r, rs₁, hstep, h₁, rfl⟩, h₂, rfl⟩
      exact ⟨s₁, r, rs₁ ++ rs₂, hstep, ⟨s', rs₁, rs₂, h₁, h₂, rfl⟩, rfl⟩

theorem Along.mono {P Q : σ → ε → Prop} (hPQ : ∀ s e, P s e → Q s e) {s : σ} {es : List ε}
    (h : Along step P s es) : Along step Q s es := by
  induction es generalizing s with
  | nil => trivial
  | cons e es ih => exact ⟨hPQ s e h.1, fun s' r hstep => ih (h.2 s' r hstep)⟩

theorem along_and {P Q : σ → ε → Prop} {s : σ} {es : List ε} :
    Along step (fun s e => P s e ∧ Q s e) s es ↔ Along step P s es ∧ Along step Q s es := by
  induction es generalizing s with
  | nil => exact ⟨fun _ => ⟨trivial, trivial⟩, fun _ => trivial⟩
  | cons e es ih =>
    constructor
    · rintro ⟨⟨hP, hQ⟩, hrest⟩
      exact ⟨⟨hP, fun s' r hstep => (ih.mp (hrest s' r hstep)).1⟩,
        ⟨hQ, fun s' r hstep => (ih.mp (hrest s' r hstep)).2⟩⟩
    · rintro ⟨⟨hP, hrest⟩, hQ, hrest'⟩
      exact ⟨⟨hP, hQ⟩, fun s' r hstep => ih.mpr ⟨hrest s' r hstep, hrest' s' r hstep⟩⟩

/-- A condition that some events meet in every state. -/
theorem along_of_forall {P : σ → ε → Prop} {s : σ} {es : List ε} (h : ∀ e ∈ es, ∀ s, P s e) :
    Along step P s es := by
  induction es generalizing s with
  | nil => trivial
  | cons e es ih =>
    exact ⟨h e List.mem_cons_self s, fun s' r _ => ih fun e' he => h e' (List.mem_cons_of_mem e he)⟩

theorem along_append {P : σ → ε → Prop} {s : σ} {es es' : List ε} :
    Along step P s (es ++ es') ↔
      Along step P s es ∧ ∀ s' rs, run step s es = some (s', rs) → Along step P s' es' := by
  induction es generalizing s with
  | nil =>
    refine ⟨fun h => ⟨trivial, fun s' rs hrun => ?_⟩, fun h => h.2 s [] rfl⟩
    cases hrun
    exact h
  | cons e es ih =>
    constructor
    · rintro ⟨hP, hrest⟩
      refine ⟨⟨hP, fun s' r hstep => (ih.mp (hrest s' r hstep)).1⟩, fun s' rs hrun => ?_⟩
      obtain ⟨s₁, r, rs', hstep, hrun', rfl⟩ := run_cons.mp hrun
      exact (ih.mp (hrest s₁ r hstep)).2 s' rs' hrun'
    · rintro ⟨⟨hP, hrest⟩, hlast⟩
      refine ⟨hP, fun s' r hstep => ih.mpr ⟨hrest s' r hstep, fun s₂ rs hrun => ?_⟩⟩
      exact hlast s₂ (r :: rs) (run_cons.mpr ⟨s', r, rs, hstep, hrun, rfl⟩)

/-- Two conditions that agree wherever an invariant holds agree on runs. -/
theorem Along.congr {D : ε → Prop} {P Q : σ → ε → Prop} {I : σ → Prop}
    (hPQ : ∀ s e, I s → D e → (P s e ↔ Q s e))
    (hI : ∀ s e s' r, I s → D e → Q s e → step s e = some (s', r) → I s') {s : σ} {es : List ε}
    (hs : I s) (hD : ∀ e ∈ es, D e) : Along step P s es ↔ Along step Q s es := by
  induction es generalizing s with
  | nil => exact Iff.rfl
  | cons e es ih =>
    have he : D e := hD e List.mem_cons_self
    have hes : ∀ e' ∈ es, D e' := fun e' h => hD e' (List.mem_cons_of_mem e h)
    constructor
    · rintro ⟨hP, hrest⟩
      have hQ := (hPQ s e hs he).mp hP
      exact ⟨hQ, fun s' r hstep =>
        (ih (hI s e s' r hs he hQ hstep) hes).mp (hrest s' r hstep)⟩
    · rintro ⟨hQ, hrest⟩
      exact ⟨(hPQ s e hs he).mpr hQ, fun s' r hstep =>
        (ih (hI s e s' r hs he hQ hstep) hes).mpr (hrest s' r hstep)⟩

/-- What every step preserves holds at the end of a run. -/
theorem Along.invariant {P : σ → ε → Prop} {I : σ → Prop}
    (hI : ∀ s e s' r, I s → P s e → step s e = some (s', r) → I s') {s s' : σ} {es : List ε}
    {rs : List ρ} (h : Along step P s es) (hs : I s) (hrun : run step s es = some (s', rs)) :
    I s' := by
  induction es generalizing s rs with
  | nil =>
    cases hrun
    exact hs
  | cons e es ih =>
    obtain ⟨s₁, r, rs', hstep, hrun', rfl⟩ := run_cons.mp hrun
    exact ih (h.2 s₁ r hstep) (hI s e s₁ r hs h.1 hstep) hrun'

/-- What holds of a step wherever an invariant does. -/
theorem Along.of_invariant {P Q : σ → ε → Prop} {I : σ → Prop}
    (hI : ∀ s e s' r, I s → P s e → step s e = some (s', r) → I s')
    (hQ : ∀ s e, I s → P s e → Q s e) {s : σ} {es : List ε} (h : Along step P s es) (hs : I s) :
    Along step Q s es := by
  induction es generalizing s with
  | nil => trivial
  | cons e es ih =>
    exact ⟨hQ s e hs h.1, fun s' r hstep => ih (h.2 s' r hstep) (hI s e s' r hs h.1 hstep)⟩

/-- A run whose steps are known, with the condition at each of them. -/
inductive Trace (step : σ → ε → Option (σ × ρ)) (P : σ → ε → Prop) :
    σ → List ε → σ → List ρ → Prop
  | nil (s : σ) : Trace step P s [] s []
  | cons {s s' s'' : σ} {e : ε} {es : List ε} {r : ρ} {rs : List ρ} :
      P s e → step s e = some (s', r) → Trace step P s' es s'' rs →
      Trace step P s (e :: es) s'' (r :: rs)

theorem Trace.along {P : σ → ε → Prop} {s s' : σ} {es : List ε} {rs : List ρ}
    (h : Trace step P s es s' rs) : Along step P s es := by
  induction h with
  | nil s => trivial
  | cons hP hstep _ ih =>
    refine ⟨hP, fun s₁ r₁ hstep₁ => ?_⟩
    rw [hstep, Option.some.injEq, Prod.mk.injEq] at hstep₁
    exact hstep₁.1 ▸ ih

theorem Trace.run {P : σ → ε → Prop} {s s' : σ} {es : List ε} {rs : List ρ}
    (h : Trace step P s es s' rs) : run step s es = some (s', rs) := by
  induction h with
  | nil s => rfl
  | cons _ hstep _ ih => exact run_cons.mpr ⟨_, _, _, hstep, ih, rfl⟩

theorem Trace.append {P : σ → ε → Prop} {s s' s'' : σ} {es es' : List ε} {rs rs' : List ρ}
    (h : Trace step P s es s' rs) (h' : Trace step P s' es' s'' rs') :
    Trace step P s (es ++ es') s'' (rs ++ rs') := by
  induction h with
  | nil s => exact h'
  | cons hP hstep _ ih => exact Trace.cons hP hstep (ih h')

end Runs

section Simulation

variable {step : σ → ε → Option (σ × ρ)} {step' : τ → ε → Option (τ × ρ)}

/-- Two machines that answer every event alike answer every run alike. -/
theorem Along.simulate {P : σ → ε → Prop} {Q : τ → ε → Prop} {R : σ → τ → Prop}
    (hR : ∀ s t e, R s t → P s e → Q t e →
      ∃ s' t' r, step s e = some (s', r) ∧ step' t e = some (t', r) ∧ R s' t')
    {s : σ} {t : τ} {es : List ε} (h : Along step P s es) (h' : Along step' Q t es) (hs : R s t) :
    ∃ s' t' rs, run step s es = some (s', rs) ∧ run step' t es = some (t', rs) ∧ R s' t' := by
  induction es generalizing s t with
  | nil => exact ⟨s, t, [], rfl, rfl, hs⟩
  | cons e es ih =>
    obtain ⟨s₁, t₁, r, hstep, hstep', hR₁⟩ := hR s t e hs h.1 h'.1
    obtain ⟨s', t', rs, hrun, hrun', hR'⟩ := ih (h.2 s₁ r hstep) (h'.2 t₁ r hstep') hR₁
    exact ⟨s', t', r :: rs, run_cons.mpr ⟨s₁, r, rs, hstep, hrun, rfl⟩,
      run_cons.mpr ⟨t₁, r, rs, hstep', hrun', rfl⟩, hR'⟩

/-- A machine whose events come with choices answers a run like one without them, when it can
choose well at every event. -/
theorem Along.simulate_choice {κ : Type*} {chosen : τ → κ × ε → Option (τ × ρ)}
    {P : σ → ε → Prop} {R : σ → τ → Prop}
    (hR : ∀ s t e, R s t → P s e →
      ∃ c s' t' r, step s e = some (s', r) ∧ chosen t (c, e) = some (t', r) ∧ R s' t')
    {s : σ} {t : τ} {es : List ε} (h : Along step P s es) (hs : R s t) :
    ∃ (cs : List κ) (s' : σ) (t' : τ) (rs : List ρ), cs.length = es.length ∧
      run step s es = some (s', rs) ∧ run chosen t (cs.zip es) = some (t', rs) ∧ R s' t' := by
  induction es generalizing s t with
  | nil => exact ⟨[], s, t, [], rfl, rfl, rfl, hs⟩
  | cons e es ih =>
    obtain ⟨c, s₁, t₁, r, hstep, hchosen, hR₁⟩ := hR s t e hs h.1
    obtain ⟨cs, s', t', rs, hlen, hrun, hrun', hR'⟩ := ih (h.2 s₁ r hstep) hR₁
    exact ⟨c :: cs, s', t', r :: rs, congrArg (· + 1) hlen,
      run_cons.mpr ⟨s₁, r, rs, hstep, hrun, rfl⟩,
      run_cons.mpr ⟨t₁, r, rs, hchosen, hrun', rfl⟩, hR'⟩

/-- Equal replies and related states. -/
def Alike (R : σ → τ → Prop) (x : σ × ρ) (y : τ × ρ) : Prop := R x.1 y.1 ∧ x.2 = y.2

lemma Alike.cons {ρ : Type*} {R : σ → τ → Prop} {x : Option (σ × List ρ)} {y : Option (τ × List ρ)}
    (h : Option.Rel (Alike R) x y) (r : ρ) :
    Option.Rel (Alike R) (x.map fun z => (z.1, r :: z.2)) (y.map fun z => (z.1, r :: z.2)) := by
  cases h with
  | none => exact .none
  | some h => exact .some ⟨h.1, congrArg (r :: ·) h.2⟩

/-- Two machines that do the same on every event do the same on every run: both have
no result, or the replies are equal. -/
theorem Along.agree {P : σ → ε → Prop} {R : σ → τ → Prop}
    (hR : ∀ s t e, R s t → P s e → Option.Rel (Alike R) (step s e) (step' t e))
    {s : σ} {t : τ} {es : List ε} (h : Along step P s es) (hs : R s t) :
    Option.Rel (Alike R) (run step s es) (run step' t es) := by
  induction es generalizing s t with
  | nil => exact .some ⟨hs, rfl⟩
  | cons e es ih =>
    have hstep := hR s t e hs h.1
    have hrest := h.2
    rw [run, run]
    generalize step s e = x at hstep hrest
    generalize step' t e = y at hstep
    cases hstep with
    | none => exact .none
    | @some a b hab =>
      obtain ⟨s₁, r⟩ := a
      obtain ⟨t₁, r'⟩ := b
      obtain ⟨hs₁, rfl⟩ : R s₁ t₁ ∧ r = r' := hab
      exact Alike.cons (ih (hrest s₁ r rfl) hs₁) r

/-- Two machines side by side; a step has a result when both have one. -/
def both (step : σ → ε → Option (σ × ρ)) (step' : τ → ε → Option (τ × ρ)) (s : σ × τ) (e : ε) :
    Option ((σ × τ) × (ρ × ρ)) :=
  (step s.1 e).bind fun x => (step' s.2 e).map fun y => ((x.1, y.1), (x.2, y.2))

/-- `Along.agree` with a condition on both states. -/
theorem Along.agree_both {P : σ × τ → ε → Prop} {R : σ → τ → Prop}
    (hR : ∀ s t e, R s t → P (s, t) e → Option.Rel (Alike R) (step s e) (step' t e))
    {s : σ} {t : τ} {es : List ε} (h : Along (both step step') P (s, t) es) (hs : R s t) :
    Option.Rel (Alike R) (run step s es) (run step' t es) := by
  induction es generalizing s t with
  | nil => exact .some ⟨hs, rfl⟩
  | cons e es ih =>
    have hstep := hR s t e hs h.1
    have hrest := h.2
    rw [run, run]
    simp only [both] at hrest
    generalize step s e = x at hstep hrest
    generalize step' t e = y at hstep hrest
    cases hstep with
    | none => exact .none
    | @some a b hab =>
      obtain ⟨s₁, r⟩ := a
      obtain ⟨t₁, r'⟩ := b
      obtain ⟨hs₁, rfl⟩ : R s₁ t₁ ∧ r = r' := hab
      exact Alike.cons (ih (hrest (s₁, t₁) (r, r) rfl) hs₁) r

/-- Related partial results stay related when related functions go on with them. -/
lemma rel_bind {β γ β' γ' : Type*} {S : β → γ → Prop} {T : β' → γ' → Prop} {x : Option β}
    {y : Option γ} {f : β → Option β'} {g : γ → Option γ'} (h : Option.Rel S x y)
    (hfg : ∀ a b, S a b → Option.Rel T (f a) (g b)) : Option.Rel T (x.bind f) (y.bind g) := by
  cases h with
  | none => exact .none
  | some hab => exact hfg _ _ hab

end Simulation

end OsAssignments.Machine
