import OsAssignments.Sleeping
import OsAssignments.TurnTaking

/-!
# Fair turns

While a user process neither sleeps nor exits, no other context is dispatched more than once
more often than it is, whatever the other contexts do. A process that sleeps is back soon
after the tick that wakes it, and not before.
-/
namespace OsAssignments.Scheduler

open Machine TurnTaking

variable {k k' : Kernel} {e : Event} {p q : Pid} {es es' : List Event}
variable {r : Option (Abi → UserRegs)}

section Staying

/-- The events by which the current process gives up its turn for longer. -/
def Event.leaves : Event → Bool
  | exit _ _ | sleep _ _ _ => true
  | tick _ | clone _ | alarm _ | signal _ _ => false

/-- What can happen while `p` neither sleeps nor exits. -/
def Event.Spares (p : Pid) (k : Kernel) (e : Event) : Prop :=
  e.FromUser k ∧ (e.leaves = true → k.current ≠ p)

/-- A user process that is ready, or current. -/
structure Runnable (k : Kernel) (p : Pid) : Prop where
  user : p ≠ 0
  turn : p ≠ k.current → (k.ctxs p).state = .ready

lemma Runnable.ready (h : Runnable k p) (hne : p ≠ k.current) : Ready k p :=
  ⟨h.user, hne, h.turn hne⟩

/-- A decision comes closer to a process that can run, or is about that process. -/
lemma Runnable.decision (h : Runnable k p) (hspares : e.Spares p k) (he : e.IsDecision) :
    ∃ k' u, handle k e = .iretq k' u ∧ Runnable k' p ∧
      Closer (fun c => (p - c).val) p k.current k'.current := by
  by_cases hcur : p = k.current
  · cases e with
    | tick regs =>
      rcases tick_cases regs k with ⟨-, hzero, -⟩ | ⟨k', j, htick, hnext, hd, -⟩ |
        ⟨k', u, htick, -, -, hsame⟩
      · exact absurd (hcur.trans hzero) h.user
      · refine ⟨k', _, htick, ⟨h.user, fun _ => ?_⟩, Or.inl hcur.symm⟩
        rw [hcur]
        exact hd.left
      · refine ⟨k', u, htick, ⟨h.user, fun hne => ?_⟩, Or.inl hcur.symm⟩
        exact absurd (hcur.trans hsame.current.symm) hne
    | exit t2 cpu => exact absurd hcur.symm (hspares.2 rfl)
    | sleep ticks stack cpu => exact absurd hcur.symm (hspares.2 rfl)
    | clone call => cases he
    | alarm ticks => cases he
    | signal signo handler => cases he
  · obtain ⟨k', u, hhandle, hcloser, hready⟩ := decision_closer (h.ready hcur) hspares.1 he
    exact ⟨k', u, hhandle, ⟨h.user, hready⟩, Closer.of_lt hcloser⟩

lemma current_kept (he : e.IsDecision = false) (hstep : step k e = some (k', r)) :
    k'.current = k.current := by
  cases e with
  | tick regs => cases he
  | exit t2 cpu => cases he
  | sleep ticks stack cpu => cases he
  | clone call =>
    cases hstep
    rfl
  | alarm ticks =>
    cases hstep
    rfl
  | signal signo handler =>
    cases hstep
    rfl

/-- Other events leave it as it is. -/
lemma Runnable.kept (h : Runnable k p) (he : e.IsDecision = false)
    (hstep : step k e = some (k', r)) : Runnable k' p := by
  refine ⟨h.user, fun hne => ?_⟩
  rw [current_kept he hstep] at hne
  exact (ready_kept (h.ready hne) he hstep).2.ready

end Staying

section Turns

/-- The contexts that are dispatched come closer to `p` again and again. -/
lemma Runnable.closer (h : Runnable k p) (hes : Along step (Event.Spares p) k es) :
    List.IsChain (Closer (fun c => (p - c).val) p) (k.current :: dispatched k es) := by
  induction es generalizing k with
  | nil => exact List.isChain_singleton _
  | cons e es ih =>
    unfold dispatched
    cases he : e.IsDecision with
    | false =>
      obtain ⟨k', r, hstep⟩ := step_isSome (k := k) he
      have hrest := ih (h.kept he hstep) (hes.2 k' r hstep)
      rw [current_kept he hstep] at hrest
      rw [hstep]
      exact hrest
    | true =>
      obtain ⟨k', u, hhandle, hk', hcloser⟩ := h.decision hes.1 he
      have hstep : step k e = some (k', some u) := by rw [step, hhandle, Outcome.next]
      rw [hstep]
      exact List.isChain_cons_cons.mpr ⟨hcloser, ih hk' (hes.2 k' _ hstep)⟩

/-- The run goes on, and every decision dispatches a context. -/
lemma Runnable.run (h : Runnable k p) (hes : Along step (Event.Spares p) k es) :
    (∃ k' rs, run step k es = some (k', rs) ∧ Runnable k' p) ∧
      (dispatched k es).length = es.countP Event.IsDecision := by
  induction es generalizing k with
  | nil => exact ⟨⟨k, [], rfl, h⟩, rfl⟩
  | cons e es ih =>
    unfold dispatched
    cases he : e.IsDecision with
    | false =>
      obtain ⟨k₁, r, hstep⟩ := step_isSome (k := k) he
      obtain ⟨⟨k', rs, hrun, hk'⟩, hlength⟩ := ih (h.kept he hstep) (hes.2 k₁ r hstep)
      rw [hstep, List.countP_cons_of_neg (by simp [he])]
      exact ⟨⟨k', r :: rs, run_cons.mpr ⟨k₁, r, rs, hstep, hrun, rfl⟩, hk'⟩, hlength⟩
    | true =>
      obtain ⟨k₁, u, hhandle, hk₁, -⟩ := h.decision hes.1 he
      have hstep : step k e = some (k₁, some u) := by rw [step, hhandle, Outcome.next]
      obtain ⟨⟨k', rs, hrun, hk'⟩, hlength⟩ := ih hk₁ (hes.2 k₁ _ hstep)
      rw [hstep, List.countP_cons_of_pos he]
      exact ⟨⟨k', some u :: rs, run_cons.mpr ⟨k₁, some u, rs, hstep, hrun, rfl⟩, hk'⟩,
        congrArg (· + 1) hlength⟩

/-- While a user process neither sleeps nor exits, it can run, no context is dispatched more than
once more often than it is, and it has its share of all decisions. -/
theorem fair_share (k : Kernel) (p : Pid) (hp : Runnable k p) (es : List Event)
    (hes : Along step (Event.Spares p) k es) :
    (∃ k' rs, run step k es = some (k', rs) ∧ Runnable k' p) ∧
      (∀ q, (dispatched k es).count q ≤ (dispatched k es).count p + 1) ∧
      es.countP Event.IsDecision ≤
        (dispatched k es).toFinset.card * ((dispatched k es).count p + 1) := by
  have hchain := hp.closer hes
  obtain ⟨hrun, hlength⟩ := hp.run hes
  refine ⟨hrun, count_le hchain, ?_⟩
  rw [← hlength]
  exact length_le hchain

theorem fair_share_two :
    (dispatched bootTwo (List.replicate 9 (.tick noRegs))).count 1 ≤
      (dispatched bootTwo (List.replicate 9 (.tick noRegs))).count 2 + 1 := by
  have hspares : ∀ e ∈ List.replicate 9 (Event.tick noRegs), ∀ k, e.Spares 2 k := by
    intro e he k
    rw [List.eq_of_mem_replicate he]
    exact ⟨trivial, fun h => absurd h Bool.false_ne_true⟩
  exact (fair_share bootTwo 2 ⟨by decide, fun _ => rfl⟩ _ (along_of_forall hspares)).2.1 1

end Turns

section Return

variable {c : BitVec 32}

/-- What is dispatched while `p` sleeps on. -/
lemma Asleep.not_dispatched (h : Asleep p c k) (he : Along step (Event.Elsewhere p) k es)
    (hc : ∀ i < es.countP Event.isTick, c - BitVec.ofNat 32 i ≠ 2) : p ∉ dispatched k es := by
  induction es generalizing k c with
  | nil => exact List.not_mem_nil
  | cons e es ih =>
    unfold dispatched
    obtain ⟨k₁, r, c', hstep, h₁, hc'⟩ : ∃ k₁ r c', step k e = some (k₁, r) ∧ Asleep p c' k₁ ∧
        ∀ i < es.countP Event.isTick, c' - BitVec.ofNat 32 i ≠ 2 := by
      cases htick : e.isTick with
      | false =>
        rw [List.countP_cons_of_neg (by simp [htick])] at hc
        obtain ⟨k₁, r, hstep, h₁⟩ := h.call he.1 htick
        exact ⟨k₁, r, c, hstep, h₁, hc⟩
      | true =>
        obtain ⟨regs, rfl⟩ : ∃ regs, e = .tick regs := by
          cases e <;> simp [Event.isTick] at htick ⊢
        rw [List.countP_cons_of_pos htick] at hc
        obtain ⟨k₁, r, hstep, h₁⟩ := h.tick (by simpa using hc 0 (by omega)) regs
        refine ⟨k₁, r, c - 1, hstep, h₁, fun i hi => ?_⟩
        have hsub : c - 1 - BitVec.ofNat 32 i = c - BitVec.ofNat 32 (i + 1) := by bv_omega
        rw [hsub]
        exact hc (i + 1) (by omega)
    have hrest := ih h₁ (he.2 k₁ r hstep) hc'
    rw [hstep]
    cases e.IsDecision with
    | false => exact hrest
    | true => exact fun hmem => (List.mem_cons.mp hmem).elim h₁.other hrest

/-- The tick that wakes a process dispatches it, or is the first of at most 15 decisions up to
its turn. -/
lemma Asleep.back (h : Asleep p 2 k) {regs : UserRegs}
    (he : Along step (Event.Elsewhere p) k (.tick regs :: es))
    (hcount : 14 ≤ es.countP Event.IsDecision) :
    p ∈ (dispatched k (.tick regs :: es)).take 15 := by
  have hready : (k.woken.ctxs p).state = .ready := awake_ready.mpr (Or.inr h.ticks)
  obtain ⟨j, hj⟩ : ∃ j, pick k.woken = some j := pick_isSome h.user h.other hready
  obtain ⟨k', htick, hd, -⟩ := tick_switch regs hj
  have hstep : step k (.tick regs) = some (k', some (switchTo j (k.ctxs j).regs regs.toRegs)) := by
    rw [step, handle, htick, Outcome.next]
  have hcloser := (pick_eq_some hj).closer h.user h.other hready
  rw [dispatched, hstep]
  simp only [Event.IsDecision, if_true, List.take_succ_cons, hd.current]
  by_cases hpj : p = j
  · rw [hpj]
    exact List.mem_cons_self
  have hp' : Ready k' p :=
    ⟨h.user, by rwa [hd.current], (hd.state p h.other hpj).trans hready⟩
  have hle : (p - k'.current).val ≤ 14 := by
    rw [hd.current]
    omega
  have huser : Along step (fun k e => e.FromUser k) k' es :=
    (he.2 k' _ hstep).mono fun _ _ h => h.1
  have hmem := (dispatched_closer hp' huser).1 (hle.trans hcount)
  rw [← Nat.min_eq_left hle, ← List.take_take] at hmem
  exact List.mem_cons_of_mem _ (List.mem_of_mem_take hmem)

/-- A process that sleeps for `n` ticks is not dispatched before the `n`-th tick,
and is among the next 15 contexts dispatched from that tick on. -/
theorem sleeper_back (k k' : Kernel) (n : BitVec 32) (stack : ℕ → Paging.Word) (cpu : Regs)
    (r : Option (Abi → UserRegs)) (hcur : k.current ≠ 0)
    (hsleep : step k (.sleep n stack cpu) = some (k', r)) (es es' : List Event) (regs : UserRegs)
    (hes : Along step (Event.Elsewhere k.current) k' (es ++ .tick regs :: es'))
    (hticks : es.countP Event.isTick + 1 = n.toNat)
    (hcount : 14 ≤ es'.countP Event.IsDecision) :
    k.current ∉ dispatched k' es ∧ ∃ k₁ rs, run step k' es = some (k₁, rs) ∧
      k.current ∈ (dispatched k₁ (.tick regs :: es')).take 15 := by
  have hasleep := asleep_of_sleep hcur hsleep
  have hlate : ∀ i < es.countP Event.isTick, n + 1 - BitVec.ofNat 32 i ≠ 2 := by
    intro i hi
    bv_omega
  obtain ⟨hbefore, hafter⟩ := along_append.mp hes
  obtain ⟨k₁, rs, hrun, h₁⟩ := hasleep.run hbefore hlate
  have htwo : n + 1 - BitVec.ofNat 32 (es.countP Event.isTick) = 2 := by bv_omega
  rw [htwo] at h₁
  exact ⟨hasleep.not_dispatched hbefore hlate, k₁, rs, hrun, h₁.back (hafter k₁ rs hrun) hcount⟩

/-- The other process runs for two ticks. -/
theorem sleeper_back_three : ∃ k' r,
    step bootTwo (.sleep 3 (fun _ => 0) noRegs.toRegs) = some (k', r) ∧
      1 ∉ dispatched k' (List.replicate 2 (.tick noRegs)) := by
  obtain ⟨k', r, hstep⟩ : ∃ k' r,
      step bootTwo (.sleep 3 (fun _ => 0) noRegs.toRegs) = some (k', r) := ⟨_, _, rfl⟩
  have hes : ∀ e ∈ List.replicate 2 (.tick noRegs) ++
      .tick noRegs :: List.replicate 14 (.tick noRegs), ∀ k, Event.Elsewhere 1 k e := by
    intro e he k
    obtain rfl : e = .tick noRegs := by simpa [List.mem_replicate] using he
    exact ⟨trivial, fun call hcall => by cases hcall⟩
  exact ⟨k', r, hstep, (sleeper_back bootTwo k' 3 (fun _ => 0) noRegs.toRegs r (by decide)
    hstep _ (List.replicate 14 (.tick noRegs)) noRegs (along_of_forall hes) (by decide)
    (by decide)).1⟩

end Return

end OsAssignments.Scheduler
