import OsAssignments.Machine

/-!
# Interleavings of threads

Threads with states of their own act on one shared state, one step of one thread at a
time. A thread may hold resources; no two threads hold the same one as long as each step
takes only resources that are not in use. Threads exclude each other by a lock that each
of them takes on its way into its critical section and gives back on its way out.
-/
namespace OsAssignments.Interleaving

open Machine

variable {σ τ ι β : Type*}

/-- The shared state, and the state of each thread. -/
@[ext] structure Threads (σ τ ι : Type*) where
  shared : σ
  locals : ι → τ

section Steps

variable [DecidableEq ι] {act : ι → σ → τ → Option (σ × τ)}
  {x x' : Threads σ τ ι} {i : ι} {r : Unit}

/-- One step of one thread; it has none when the thread is done or waits. -/
def advance (act : ι → σ → τ → Option (σ × τ)) (x : Threads σ τ ι) (i : ι) :
    Option (Threads σ τ ι × Unit) :=
  (act i x.shared (x.locals i)).map fun y => (⟨y.1, Function.update x.locals i y.2⟩, ())

lemma advance_eq_some : advance act x i = some (x', r) ↔
    act i x.shared (x.locals i) = some (x'.shared, x'.locals i) ∧
      ∀ j, j ≠ i → x'.locals j = x.locals j := by
  rw [advance, Option.map_eq_some_iff]
  constructor
  · rintro ⟨y, hact, heq⟩
    cases heq
    refine ⟨?_, fun j hj => Function.update_of_ne hj _ _⟩
    simp only [hact, Function.update_self]
  · rintro ⟨hact, hother⟩
    refine ⟨_, hact, ?_⟩
    refine Prod.ext (Threads.ext rfl (funext fun j => ?_)) rfl
    rcases eq_or_ne j i with rfl | hj
    · exact Function.update_self ..
    · exact (Function.update_of_ne hj _ _).trans (hother j hj).symm

end Steps

section Solo

variable {act : ι → σ → τ → Option (σ × τ)} {P Q : ι → σ → τ → Prop} {i : ι} {n : ℕ} {s s' : σ}
  {t t' : τ}

/-- `n` steps of one thread while the others wait, with a condition on each of them. -/
inductive Solo (act : ι → σ → τ → Option (σ × τ)) (P : ι → σ → τ → Prop) (i : ι) :
    ℕ → σ → τ → σ → τ → Prop
  | refl (s : σ) (t : τ) : Solo act P i 0 s t s t
  | step {n : ℕ} {s s' s'' : σ} {t t' t'' : τ} :
      P i s t → act i s t = some (s', t') → Solo act P i n s' t' s'' t'' →
      Solo act P i (n + 1) s t s'' t''

theorem Solo.mono (hPQ : ∀ i s t, P i s t → Q i s t) (h : Solo act P i n s t s' t') :
    Solo act Q i n s t s' t' := by
  induction h with
  | refl s t => exact Solo.refl s t
  | step hP hact _ ih => exact Solo.step (hPQ _ _ _ hP) hact ih

/-- They are a run of the interleaving. -/
theorem Solo.trace [DecidableEq ι] {l : ι → τ} (h : Solo act P i n s t s' t') (hl : l i = t) :
    Trace (advance act) (fun x i => P i x.shared (x.locals i)) ⟨s, l⟩ (List.replicate n i)
      ⟨s', Function.update l i t'⟩ (List.replicate n ()) := by
  induction h generalizing l with
  | refl s t =>
    rw [← hl, Function.update_eq_self]
    exact Trace.nil _
  | @step n s s₁ s'' t t₁ t'' hP hact _ ih =>
    subst hl
    have hadvance : advance act ⟨s, l⟩ i = some (⟨s₁, Function.update l i t₁⟩, ()) := by
      rw [advance, hact, Option.map_some]
    have hrest := ih (Function.update_self i t₁ l)
    rw [Function.update_idem] at hrest
    exact Trace.cons hP hadvance hrest

end Solo

section Resources

variable {used : σ → Set β} {held : τ → List β} {before : Set β} {x x' : Threads σ τ ι} {i : ι}

/-- No two threads hold one resource, all that are held are in use, and none was before. -/
structure Owned (used : σ → Set β) (held : τ → List β) (before : Set β) (x : Threads σ τ ι) :
    Prop where
  kept : before ⊆ used x.shared
  taken : ∀ i, ∀ b ∈ held (x.locals i), b ∈ used x.shared ∧ b ∉ before
  nodup : ∀ i, (held (x.locals i)).Nodup
  apart : ∀ i j, ∀ b ∈ held (x.locals i), b ∈ held (x.locals j) → i = j

/-- A step keeps what is in use, and takes only what is not. -/
structure Takes (used : σ → Set β) (held : τ → List β) (s s' : σ) (t t' : τ) : Prop where
  mono : used s ⊆ used s'
  taken : held t' = held t ∨ ∃ b, b ∉ used s ∧ b ∈ used s' ∧ held t' = held t ++ [b]

theorem Owned.step (h : Owned used held before x)
    (htakes : Takes used held x.shared x'.shared (x.locals i) (x'.locals i))
    (hother : ∀ j, j ≠ i → x'.locals j = x.locals j) : Owned used held before x' := by
  have hcases : ∀ j, ∀ b ∈ held (x'.locals j),
      b ∈ held (x.locals j) ∨ j = i ∧ b ∉ used x.shared ∧ b ∈ used x'.shared := by
    intro j b hb
    rcases eq_or_ne j i with rfl | hj
    · rcases htakes.taken with heq | ⟨c, hfree, hused, heq⟩ <;> rw [heq] at hb
      · exact Or.inl hb
      · rcases List.mem_append.mp hb with hb | hb
        · exact Or.inl hb
        · rw [List.mem_singleton.mp hb]
          exact Or.inr ⟨rfl, hfree, hused⟩
    · rw [hother j hj] at hb
      exact Or.inl hb
  refine ⟨h.kept.trans htakes.mono, fun j b hb => ?_, fun j => ?_, fun j k b hj hk => ?_⟩
  · rcases hcases j b hb with hold | ⟨-, hfree, hused⟩
    · exact ⟨htakes.mono (h.taken j b hold).1, (h.taken j b hold).2⟩
    · exact ⟨hused, fun hbefore => hfree (h.kept hbefore)⟩
  · rcases eq_or_ne j i with rfl | hj
    · rcases htakes.taken with heq | ⟨b, hfree, -, heq⟩ <;> rw [heq]
      · exact h.nodup j
      · refine List.nodup_append.mpr ⟨h.nodup j, List.nodup_singleton b, fun c hc d hd hcd => ?_⟩
        rw [List.mem_singleton.mp hd] at hcd
        exact hfree (hcd ▸ (h.taken j c hc).1)
    · rw [hother j hj]
      exact h.nodup j
  · rcases hcases j b hj with holdj | ⟨hji, hfree, -⟩ <;>
      rcases hcases k b hk with holdk | ⟨hki, hfree', -⟩
    · exact h.apart j k b holdj holdk
    · exact absurd (h.taken j b holdj).1 hfree'
    · exact absurd (h.taken k b holdk).1 hfree
    · exact hji.trans hki.symm

/-- Threads that hold nothing yet. -/
lemma owned_start {s : σ} {t : ι → τ} (ht : ∀ i, held (t i) = []) :
    Owned used held (used s) (⟨s, t⟩ : Threads σ τ ι) := by
  refine ⟨subset_rfl, fun i b hb => ?_, fun i => ?_, fun i j b hb => ?_⟩ <;>
    simp only [ht, List.not_mem_nil, List.nodup_nil] at *

end Resources

section Locks

variable {held : σ → Bool} {critical : τ → Prop} {x x' : Threads σ τ ι} {i j : ι}

/-- At most one thread is in its critical section, and then the lock is held. -/
structure Exclusive (held : σ → Bool) (critical : τ → Prop) (x : Threads σ τ ι) : Prop where
  unique : ∀ i j, critical (x.locals i) → critical (x.locals j) → i = j
  held : held x.shared = true ↔ ∃ i, critical (x.locals i)

/-- A step takes the lock when it is free, or gives it back, or leaves it alone. -/
structure Locking (held : σ → Bool) (critical : τ → Prop) (s s' : σ) (t t' : τ) : Prop where
  enter : ¬critical t → critical t' → held s = false ∧ held s' = true
  leave : critical t → ¬critical t' → held s' = false
  same : (critical t ↔ critical t') → held s' = held s

theorem Exclusive.step (h : Exclusive held critical x)
    (hlock : Locking held critical x.shared x'.shared (x.locals i) (x'.locals i))
    (hother : ∀ j, j ≠ i → x'.locals j = x.locals j) : Exclusive held critical x' := by
  -- no other thread is inside when thread `i` goes in
  have halone : ∀ j, j ≠ i → critical (x'.locals i) → ¬critical (x.locals j) := by
    intro j hj hin hjin
    by_cases hcritical : critical (x.locals i)
    · exact hj (h.unique j i hjin hcritical)
    · have hfree := (hlock.enter hcritical hin).1
      rw [h.held.mpr ⟨j, hjin⟩] at hfree
      cases hfree
  constructor
  · intro j k hj hk
    by_cases hji : j = i <;> by_cases hki : k = i
    · exact hji.trans hki.symm
    · rw [hji] at hj
      rw [hother k hki] at hk
      exact absurd hk (halone k hki hj)
    · rw [hki] at hk
      rw [hother j hji] at hj
      exact absurd hj (halone j hji hk)
    · rw [hother j hji] at hj
      rw [hother k hki] at hk
      exact h.unique j k hj hk
  · by_cases hin : critical (x'.locals i)
    · refine iff_of_true ?_ ⟨i, hin⟩
      by_cases hcritical : critical (x.locals i)
      · rw [hlock.same (iff_of_true hcritical hin)]
        exact h.held.mpr ⟨i, hcritical⟩
      · exact (hlock.enter hcritical hin).2
    · by_cases hcritical : critical (x.locals i)
      · rw [hlock.leave hcritical hin]
        refine iff_of_false Bool.false_ne_true fun ⟨j, hj⟩ => ?_
        have hji : j ≠ i := fun he => hin (he ▸ hj)
        rw [hother j hji] at hj
        exact hji (h.unique j i hj hcritical)
      · rw [hlock.same (iff_of_false hcritical hin), h.held]
        constructor
        · rintro ⟨j, hj⟩
          have hji : j ≠ i := fun he => hcritical (he ▸ hj)
          exact ⟨j, by rwa [hother j hji]⟩
        · rintro ⟨j, hj⟩
          have hji : j ≠ i := fun he => hin (he ▸ hj)
          exact ⟨j, by rwa [hother j hji] at hj⟩

/-- Nobody is inside at the start. -/
lemma exclusive_start {s : σ} {t : ι → τ} (hs : held s = false) (ht : ∀ i, ¬critical (t i)) :
    Exclusive held critical (⟨s, t⟩ : Threads σ τ ι) := by
  refine ⟨fun i j hi _ => absurd hi (ht i), ?_⟩
  refine iff_of_false ?_ fun ⟨i, hi⟩ => ht i hi
  rw [hs]
  exact Bool.false_ne_true

end Locks

section Sections

variable {act : ι → σ → τ → Option (σ × τ)} {held : σ → Bool} {critical : τ → Prop}
variable {i : ι} {s s' s'' : σ} {t t' t'' : τ}

/-- Threads that meet the shared state in their critical sections only. -/
structure Guarded (act : ι → σ → τ → Option (σ × τ)) (held : σ → Bool) (critical : τ → Prop) :
    Prop where
  locking : ∀ {i s t s' t'}, act i s t = some (s', t') → Locking held critical s s' t t'
  outside : ∀ {i s t s' t'}, act i s t = some (s', t') → ¬critical t → ¬critical t' →
    s' = s ∧ ∀ u, act i u t = some (u, t')

/-- A thread inside its critical section, alone since it went in from `s` and `t`. -/
inductive Inside (act : ι → σ → τ → Option (σ × τ)) (critical : τ → Prop) (i : ι) (s : σ) (t : τ) :
    σ → τ → Prop
  | enter {s' : σ} {t' : τ} : act i s t = some (s', t') → ¬critical t → critical t' →
      Inside act critical i s t s' t'
  | stay {s' s'' : σ} {t' t'' : τ} : Inside act critical i s t s' t' →
      act i s' t' = some (s'', t'') → critical t'' → Inside act critical i s t s'' t''

/-- A whole critical section, alone. -/
inductive Whole (act : ι → σ → τ → Option (σ × τ)) (critical : τ → Prop) (i : ι) (s : σ) (t : τ) :
    σ → τ → Prop
  | leave {s' s'' : σ} {t' t'' : τ} : Inside act critical i s t s' t' →
      act i s' t' = some (s'', t'') → ¬critical t'' → Whole act critical i s t s'' t''

variable {x x' y y' : Threads σ τ ι} {log : List (ι × τ × τ)} {r : Unit}

/-- `y` is where the threads are if the one that is inside, in `x`, has not gone in yet. -/
structure Behind (act : ι → σ → τ → Option (σ × τ)) (critical : τ → Prop) (y x : Threads σ τ ι) :
    Prop where
  outside : ∀ i, ¬critical (x.locals i) → y.locals i = x.locals i
  alone : (∀ i, ¬critical (x.locals i)) → y.shared = x.shared
  inside : ∀ i, critical (x.locals i) →
    Inside act critical i y.shared (y.locals i) x.shared (x.locals i)

/-- Nobody has gone in yet. -/
lemma behind_start (hx : ∀ i, ¬critical (x.locals i)) : Behind act critical x x :=
  ⟨fun _ _ => rfl, fun _ => rfl, fun i hi => absurd hi (hx i)⟩

variable [DecidableEq ι]

/-- Whole sections one after the other, each with the thread and its states before and after;
other steps come in between. -/
inductive Serially (act : ι → σ → τ → Option (σ × τ)) (critical : τ → Prop) (x : Threads σ τ ι) :
    List (ι × τ × τ) → Threads σ τ ι → Prop
  | nil : Serially act critical x [] x
  | step {log : List (ι × τ × τ)} {y : Threads σ τ ι} {i : ι} {t : τ} :
      Serially act critical x log y → act i y.shared (y.locals i) = some (y.shared, t) →
      ¬critical t → Serially act critical x log ⟨y.shared, Function.update y.locals i t⟩
  | whole {log : List (ι × τ × τ)} {y : Threads σ τ ι} {i : ι} {s : σ} {t : τ} :
      Serially act critical x log y → Whole act critical i y.shared (y.locals i) s t →
      Serially act critical x (log ++ [(i, y.locals i, t)]) ⟨s, Function.update y.locals i t⟩

variable [DecidablePred critical]

variable (critical) in
/-- The threads after a step of `i`, from `x` to `x'`, while the thread inside has not gone in. -/
def follow (y x x' : Threads σ τ ι) (i : ι) : Threads σ τ ι :=
  if critical (x'.locals i) then y
  else ⟨if critical (x.locals i) then x'.shared else y.shared,
    Function.update y.locals i (x'.locals i)⟩

variable (critical) in
/-- The section that a step ends. -/
def ended (y x x' : Threads σ τ ι) (i : ι) : List (ι × τ × τ) :=
  if critical (x.locals i) ∧ ¬critical (x'.locals i) then [(i, y.locals i, x'.locals i)] else []

variable (act critical) in
/-- The sections that end in a run, in order. -/
def sections : Threads σ τ ι → Threads σ τ ι → List ι → List (ι × τ × τ)
  | _, _, [] => []
  | y, x, i :: schedule => match advance act x i with
    | some (x', _) => ended critical y x x' i ++ sections (follow critical y x x' i) x' schedule
    | none => []

/-- One step keeps the serial order, and adds the section that it ends. -/
theorem Behind.step (h : Behind act critical y x) (hguard : Guarded act held critical)
    (hx : Exclusive held critical x) (hstep : advance act x i = some (x', r)) :
    Exclusive held critical x' ∧ Behind act critical (follow critical y x x' i) x' ∧
      ∀ {x₀ log}, Serially act critical x₀ log y →
        Serially act critical x₀ (log ++ ended critical y x x' i) (follow critical y x x' i) := by
  obtain ⟨hact, hother⟩ := advance_eq_some.mp hstep
  have hlock := hguard.locking hact
  have hx' := hx.step hlock hother
  refine ⟨hx', ?_⟩
  -- no other thread is inside when thread `i` is, before or after
  have halone : ∀ j, j ≠ i → critical (x.locals i) ∨ critical (x'.locals i) →
      ¬critical (x'.locals j) := by
    rintro j hj (hin | hin) hjin
    · rw [hother j hj] at hjin
      exact hj (hx.unique j i hjin hin)
    · exact hj (hx'.unique j i hjin hin)
  by_cases hin : critical (x.locals i) <;> by_cases hin' : critical (x'.locals i)
  · have hinside := (h.inside i hin).stay hact hin'
    rw [follow, if_pos hin', ended, if_neg fun hend => hend.2 hin']
    refine ⟨⟨fun j hj => ?_, fun hnone => absurd hin' (hnone i), fun j hj => ?_⟩, fun hy => ?_⟩
    · have hji : j ≠ i := fun he => hj (he ▸ hin')
      rw [hother j hji] at hj ⊢
      exact h.outside j hj
    · obtain rfl := hx'.unique j i hj hin'
      exact hinside
    · rwa [List.append_nil]
  · have hwhole := Whole.leave (h.inside i hin) hact hin'
    rw [follow, if_neg hin', if_pos hin, ended, if_pos ⟨hin, hin'⟩]
    refine ⟨⟨fun j hj => ?_, fun _ => rfl, fun j hj => ?_⟩, fun hy => hy.whole hwhole⟩
    · by_cases hji : j = i
      · rw [hji]
        exact Function.update_self ..
      · have hjx : ¬critical (x.locals j) := fun hc => hji (hx.unique j i hc hin)
        exact (Function.update_of_ne hji _ _).trans ((h.outside j hjx).trans (hother j hji).symm)
    · by_cases hji : j = i
      · exact absurd (hji ▸ hj) hin'
      · exact absurd hj (halone j hji (Or.inl hin))
  · have hfree : ∀ j, ¬critical (x.locals j) := by
      intro j hj
      have hheld := hx.held.mpr ⟨j, hj⟩
      rw [(hlock.enter hin hin').1] at hheld
      cases hheld
    rw [follow, if_pos hin', ended, if_neg fun hend => hin hend.1]
    refine ⟨⟨fun j hj => ?_, fun hnone => absurd hin' (hnone i), fun j hj => ?_⟩, fun hy => ?_⟩
    · have hji : j ≠ i := fun he => hj (he ▸ hin')
      rw [hother j hji]
      exact h.outside j (hfree j)
    · obtain rfl := hx'.unique j i hj hin'
      rw [h.alone hfree, h.outside j (hfree j)]
      exact Inside.enter hact hin hin'
    · rwa [List.append_nil]
  · obtain ⟨hshared, hany⟩ := hguard.outside hact hin hin'
    rw [follow, if_neg hin', if_neg hin, ended, if_neg fun hend => hin hend.1]
    have hyi := h.outside i hin
    refine ⟨⟨fun j hj => ?_, fun hnone => ?_, fun j hj => ?_⟩, fun hy => ?_⟩
    · by_cases hji : j = i
      · rw [hji]
        exact Function.update_self ..
      · rw [hother j hji] at hj ⊢
        exact (Function.update_of_ne hji _ _).trans (h.outside j hj)
    · rw [hshared]
      refine h.alone fun j => ?_
      by_cases hji : j = i
      · rwa [hji]
      · rw [← hother j hji]
        exact hnone j
    · have hji : j ≠ i := fun he => hin' (he ▸ hj)
      rw [hother j hji] at hj ⊢
      rw [hshared]
      simpa only [Function.update_of_ne hji] using h.inside j hj
    · rw [List.append_nil]
      exact hy.step (by rw [hyi]; exact hany y.shared) hin'

lemma sections_append {schedule schedule' : List ι} {us : List Unit}
    (hrun : run (advance act) x schedule = some (x', us)) :
    ∃ y', sections act critical y x (schedule ++ schedule') =
      sections act critical y x schedule ++ sections act critical y' x' schedule' := by
  induction schedule generalizing x y us with
  | nil =>
    cases hrun
    exact ⟨y, rfl⟩
  | cons i schedule ih =>
    obtain ⟨x₁, u, us', hstep, hrun', rfl⟩ := run_cons.mp hrun
    obtain ⟨y', hy'⟩ := ih (y := follow critical y x x₁ i) hrun'
    refine ⟨y', ?_⟩
    simp only [List.cons_append, sections, hstep, hy', List.append_assoc]

/-- Whatever the order of the steps, the threads are where their whole sections, one after the
other in the order in which they end, have taken them; the one that is inside has gone on from
there, alone. -/
theorem serially_of_run (hguard : Guarded act held critical) {x₀ : Threads σ τ ι}
    (hx : Exclusive held critical x) (hy : Behind act critical y x)
    (hlog : Serially act critical x₀ log y) {schedule : List ι} {us : List Unit}
    (hrun : run (advance act) x schedule = some (x', us)) :
    ∃ y', Serially act critical x₀ (log ++ sections act critical y x schedule) y' ∧
      Behind act critical y' x' ∧ Exclusive held critical x' := by
  induction schedule generalizing x y log us with
  | nil =>
    cases hrun
    exact ⟨y, by rwa [sections, List.append_nil], hy, hx⟩
  | cons i schedule ih =>
    obtain ⟨x₁, u, us', hstep, hrun', rfl⟩ := run_cons.mp hrun
    obtain ⟨hx₁, hy₁, hgrown⟩ := hy.step hguard hx hstep
    obtain ⟨y', hlog', hrest⟩ := ih hx₁ hy₁ (hgrown hlog) hrun'
    exact ⟨y', by rwa [sections, hstep, ← List.append_assoc], hrest⟩

end Sections

end OsAssignments.Interleaving
