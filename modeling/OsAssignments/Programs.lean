import Mathlib.Algebra.BigOperators.Ring.Finset
import OsAssignments.Interleaving

/-!
# Programs that call an object

A program is a tree: it is done, or it makes a call and goes on with the answer. A
specification says which calls a thread may make for what it knows of the object, and
what it knows after the answer. Threads with programs that meet their specifications
keep to them in every interleaving, make a bounded number of calls and wait for each
other only while some thread can go on.
-/
namespace OsAssignments.Programs

open Interleaving Machine

variable {κ : Type} {ρ : κ → Type} {α β V σ ι : Type*}

/-- A program with calls `κ` and their answers `ρ`. -/
inductive Program (κ : Type) (ρ : κ → Type) (α : Type*)
  | done (a : α)
  | call (c : κ) (next : ρ c → Program κ ρ α)

/-- The calls that are allowed, and what may be known after an answer. -/
structure Spec (κ : Type) (ρ : κ → Type) (V : Type*) where
  pre : V → κ → Prop
  post : V → (c : κ) → V → ρ c → Prop

namespace Program

def bind : Program κ ρ α → (α → Program κ ρ β) → Program κ ρ β
  | done a, f => f a
  | call c next, f => call c fun r => (next r).bind f

instance : Monad (Program κ ρ) where
  pure := done
  bind := bind

/-- A call on its own. -/
def ask (c : κ) : Program κ ρ (ρ c) := call c done

/-- At most `n` rounds of a loop that carries a state; a round that returns `true` breaks it. -/
def rounds (body : β → Program κ ρ (Bool × β)) : ℕ → β → Program κ ρ β
  | 0, b => done b
  | n + 1, b => (body b).bind fun x => if x.1 then done x.2 else rounds body n x.2

end Program

section Meets

variable {S : Spec κ ρ V} {Q Q' : V → α → Prop} {n m : ℕ} {p : Program κ ρ α} {v : V}

/-- A program makes allowed calls only, at most `n` of them, and ends as `Q` says. -/
def Meets (S : Spec κ ρ V) (Q : V → α → Prop) : Program κ ρ α → ℕ → V → Prop
  | .done a, _, v => Q v a
  | .call c next, n, v => 0 < n ∧ S.pre v c ∧
      ∀ u r, S.post v c u r → Meets S Q (next r) (n - 1) u

/-- More calls and a weaker end. -/
theorem Meets.mono (h : Meets S Q p n v) (hn : n ≤ m) (hQ : ∀ v a, Q v a → Q' v a) :
    Meets S Q' p m v := by
  induction p generalizing n m v with
  | done a => exact hQ v a h
  | call c next ih =>
    obtain ⟨hpos, hpre, hnext⟩ := h
    exact ⟨by omega, hpre, fun u r hpost => ih r (hnext u r hpost) (by omega)⟩

/-- One program after another. -/
theorem Meets.bind {R : V → β → Prop} {f : α → Program κ ρ β} (hm : m ≤ n)
    (h : Meets S (fun v a => Meets S R (f a) (n - m) v) p m v) : Meets S R (p.bind f) n v := by
  induction p generalizing n m v with
  | done a => exact Meets.mono h (by omega) fun _ _ hR => hR
  | call c next ih =>
    obtain ⟨hpos, hpre, hnext⟩ := h
    refine ⟨by omega, hpre, fun u r hpost => ih r (m := m - 1) (by omega) ?_⟩
    rw [show n - 1 - (m - 1) = n - m by omega]
    exact hnext u r hpost

theorem meets_bind {α β : Type} {p : Program κ ρ α} {Q : V → α → Prop} {R : V → β → Prop}
    {f : α → Program κ ρ β} (hm : m ≤ n)
    (h : Meets S Q p m v) (hf : ∀ u a, Q u a → Meets S R (f a) (n - m) u) :
    Meets S R (p >>= f) n v :=
  Meets.bind hm (h.mono le_rfl hf)

/-- One call, and what follows its answer. -/
theorem meets_ask {β : Type} {R : V → β → Prop} {c : κ} {f : ρ c → Program κ ρ β} (hn : 0 < n)
    (hpre : S.pre v c) (hf : ∀ u r, S.post v c u r → Meets S R (f r) (n - 1) u) :
    Meets S R (Program.ask c >>= f) n v :=
  ⟨hn, hpre, hf⟩

/-- A loop whose rounds do not break off. -/
theorem meets_rounds {I : ℕ → V → β → Prop} {body : β → Program κ ρ (Bool × β)}
    (hbody : ∀ k v b, I (k + 1) v b →
      Meets S (fun u x => x.1 = false ∧ I k u x.2) (body b) n v) (k : ℕ) {b : β} (hv : I k v b) :
    Meets S (I 0) (Program.rounds body k b) (k * n) v := by
  induction k generalizing v b with
  | zero => exact hv
  | succ k ih =>
    rw [Nat.add_one_mul]
    refine Meets.bind (by omega) ((hbody k v b hv).mono le_rfl fun u x hu => ?_)
    rw [hu.1, Nat.add_sub_cancel]
    exact ih hu.2

end Meets

section Threads

variable {serve : ι → σ → (c : κ) → Option (σ × ρ c)} {S : ι → Spec κ ρ V}
  {rel : σ → (ι → V) → Prop} {busy : V → Prop} {Q : ι → V → α → Prop} {n : ι → ℕ}
  {x x' : Threads σ (Program κ ρ α) ι} {i : ι}

/-- One call of a program; it has none when the program is done or the call has to wait. -/
def act (serve : ι → σ → (c : κ) → Option (σ × ρ c)) (i : ι) (s : σ) :
    Program κ ρ α → Option (σ × Program κ ρ α)
  | .done _ => none
  | .call c next => (serve i s c).map fun y => (y.1, next y.2)

/-- An object that serves allowed calls as specified. A call changes what its thread knows and
nothing of what others know, and one that waits does so for a busy thread, which need not wait. -/
structure Implements [DecidableEq ι] (serve : ι → σ → (c : κ) → Option (σ × ρ c))
    (S : ι → Spec κ ρ V) (rel : σ → (ι → V) → Prop) (busy : V → Prop) : Prop where
  answer : ∀ s v i c s' r, rel s v → (S i).pre (v i) c → serve i s c = some (s', r) →
    ∃ u, (S i).post (v i) c u r ∧ rel s' (Function.update v i u)
  waits : ∀ s v i c, rel s v → (S i).pre (v i) c → serve i s c = none → ∃ j, busy (v j)
  goes : ∀ s v i c, rel s v → (S i).pre (v i) c → busy (v i) → serve i s c ≠ none

/-- What each thread knows is so, and its program keeps to it with `n i` calls. -/
def Keeping (S : ι → Spec κ ρ V) (rel : σ → (ι → V) → Prop) (Q : ι → V → α → Prop) (n : ι → ℕ)
    (x : Threads σ (Program κ ρ α) ι) : Prop :=
  ∃ v, rel x.shared v ∧ ∀ i, Meets (S i) (Q i) (x.locals i) (n i) (v i)

variable [DecidableEq ι] (h : Implements serve S rel busy)
include h

/-- A step uses up one call of its thread. -/
theorem Keeping.step {r : Unit} (hk : Keeping S rel Q n x)
    (hstep : advance (act serve) x i = some (x', r)) :
    0 < n i ∧ Keeping S rel Q (Function.update n i (n i - 1)) x' := by
  obtain ⟨v, hrel, hmeets⟩ := hk
  obtain ⟨hact, hother⟩ := advance_eq_some.mp hstep
  have hi := hmeets i
  cases hp : x.locals i with
  | done a =>
    rw [hp] at hact
    cases hact
  | call c next =>
    rw [hp] at hact hi
    obtain ⟨hpos, hpre, hnext⟩ := hi
    obtain ⟨⟨s', a⟩, hserve, heq⟩ := Option.map_eq_some_iff.mp hact
    rw [Prod.mk.injEq] at heq
    obtain ⟨u, hpost, hrel'⟩ := h.answer _ v i c s' a hrel hpre hserve
    refine ⟨hpos, Function.update v i u, heq.1 ▸ hrel', fun j => ?_⟩
    rcases eq_or_ne j i with rfl | hj
    · rw [Function.update_self, Function.update_self, ← heq.2]
      exact hnext u a hpost
    · rw [Function.update_of_ne hj, Function.update_of_ne hj, hother j hj]
      exact hmeets j

/-- In every run the threads keep to their specifications, and none makes more than its calls. -/
theorem Keeping.run {sched : List ι} {rs : List Unit} (hk : Keeping S rel Q n x)
    (hrun : Machine.run (advance (act serve)) x sched = some (x', rs)) :
    ∃ m, (∀ i, sched.count i + m i = n i) ∧ Keeping S rel Q m x' := by
  induction sched generalizing x n rs with
  | nil =>
    cases hrun
    exact ⟨n, fun i => Nat.zero_add _, hk⟩
  | cons i sched ih =>
    obtain ⟨x₁, r, rs', hstep, hrun, -⟩ := run_cons.mp hrun
    obtain ⟨hpos, hk₁⟩ := hk.step h hstep
    obtain ⟨m, hm, hk'⟩ := ih hk₁ hrun
    refine ⟨m, fun j => ?_, hk'⟩
    have hj := hm j
    rw [List.count_cons]
    rcases eq_or_ne j i with rfl | hne
    · rw [Function.update_self] at hj
      simp only [beq_self_eq_true, if_true]
      omega
    · rw [Function.update_of_ne hne] at hj
      simp only [beq_iff_eq, Ne.symm hne, if_false]
      exact hj

/-- As long as a thread is not done, some thread can go on. -/
theorem Keeping.not_stuck (hk : Keeping S rel Q n x) (hQ : ∀ i v a, Q i v a → ¬busy v)
    (hi : ∀ a, x.locals i ≠ .done a) : ∃ j y, advance (act serve) x j = some (y, ()) := by
  obtain ⟨v, hrel, hmeets⟩ := hk
  have hgo : ∀ j c next y, x.locals j = .call c next → serve j x.shared c = some y →
      ∃ z, advance (act serve) x j = some (z, ()) := by
    intro j c next y hj hserve
    exact ⟨_, by rw [advance, hj, act, hserve]; rfl⟩
  have hcall : ∀ j, (∀ a, x.locals j ≠ .done a) → ∃ c next, x.locals j = .call c next ∧
      (S j).pre (v j) c := by
    intro j hj
    have hm := hmeets j
    cases hp : x.locals j with
    | done a => exact absurd hp (hj a)
    | call c next =>
      rw [hp] at hm
      exact ⟨c, next, rfl, hm.2.1⟩
  obtain ⟨c, next, hp, hpre⟩ := hcall i hi
  cases hserve : serve i x.shared c with
  | some y => exact ⟨i, hgo i c next y hp hserve⟩
  | none =>
    -- the thread waits for a busy one, which is not done and does not wait
    obtain ⟨j, hbusy⟩ := h.waits _ v i c hrel hpre hserve
    have hj : ∀ a, x.locals j ≠ .done a := by
      intro a hdone
      have hm := hmeets j
      rw [hdone] at hm
      exact hQ j _ a hm hbusy
    obtain ⟨c', next', hp', hpre'⟩ := hcall j hj
    obtain ⟨y, hy⟩ := Option.ne_none_iff_exists'.mp (h.goes _ v j c' hrel hpre' hbusy)
    exact ⟨j, hgo j c' next' y hp' hy⟩

/-- Every run goes on to an end at which all threads are done. -/
theorem Keeping.completes [Fintype ι] (hk : Keeping S rel Q n x)
    (hQ : ∀ i v a, Q i v a → ¬busy v) :
    ∃ sched y rs, Machine.run (advance (act serve)) x sched = some (y, rs) ∧
      ∀ i, ∃ a, y.locals i = .done a := by
  obtain ⟨calls, hcalls⟩ : ∃ calls, ∑ i, n i = calls := ⟨_, rfl⟩
  induction calls generalizing x n with
  | zero =>
    refine ⟨[], x, [], rfl, fun i => ?_⟩
    by_contra hdone
    push Not at hdone
    obtain ⟨j, y, hstep⟩ := hk.not_stuck h hQ hdone
    have hzero : n j = 0 := Finset.sum_eq_zero_iff.mp hcalls j (Finset.mem_univ j)
    have hpos := (hk.step h hstep).1
    omega
  | succ calls ih =>
    by_cases hall : ∀ i, ∃ a, x.locals i = .done a
    · exact ⟨[], x, [], rfl, hall⟩
    push Not at hall
    obtain ⟨i, hi⟩ := hall
    obtain ⟨j, x₁, hstep⟩ := hk.not_stuck h hQ hi
    obtain ⟨hpos, hk₁⟩ := hk.step h hstep
    -- the step used up a call
    have hsum := Finset.sum_update_of_mem (Finset.mem_univ j) n (n j - 1)
    have hold := Finset.add_sum_erase Finset.univ n (Finset.mem_univ j)
    rw [Finset.sdiff_singleton_eq_erase] at hsum
    obtain ⟨sched, y, rs, hrun, hdone⟩ := ih hk₁ (by omega)
    exact ⟨j :: sched, y, () :: rs, run_cons.mpr ⟨x₁, (), rs, hstep, hrun, rfl⟩, hdone⟩

end Threads

end OsAssignments.Programs
