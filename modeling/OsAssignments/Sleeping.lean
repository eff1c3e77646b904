import OsAssignments.Starvation

/-!
# When a sleeper wakes

`do_sleep` sets the counter of the current context to one more than the ticks asked for,
and every tick takes it down by one and wakes the context when it gets to 1. Nothing
else touches a sleeper: only ready contexts are dispatched, and as long as somebody
waits the system does not shut down.
-/
namespace OsAssignments.Scheduler

open Machine

variable {k k' : Kernel} {e : Event} {p j : Pid} {n c : BitVec 32} {es : List Event}
variable {stack : ℕ → Paging.Word} {cpu : Regs} {r : Option (Abi → UserRegs)}

section Steps

def Event.isTick : Event → Bool
  | tick _ => true
  | exit _ _ | sleep _ _ _ | clone _ | alarm _ | signal _ _ => false

/-- What can happen while `p` sleeps: system calls come from user processes, and a clone goes
into another context. -/
def Event.Elsewhere (p : Pid) (k : Kernel) (e : Event) : Prop :=
  e.FromUser k ∧ ∀ call, e = .clone call → call.pid ≠ p

/-- A user process that sleeps with the counter `c`. -/
structure Asleep (p : Pid) (c : BitVec 32) (k : Kernel) : Prop where
  user : p ≠ 0
  other : p ≠ k.current
  waiting : (k.ctxs p).state = .waiting
  ticks : (k.ctxs p).ticksToSleep = c

lemma Asleep.ne_of_chosen (h : Asleep p c k) (hj : Chosen k j) : p ≠ j := by
  rintro rfl
  rcases hj.ready_or_swapper with hready | hzero
  · rw [h.waiting] at hready
    cases hready
  · exact h.user hzero

/-- A sleeper is no part of a switch to another context. -/
lemma Asleep.dispatch {s : ProcessState} (h : Asleep p c k) (hd : Dispatch k s j k')
    (hne : p ≠ j) : Asleep p c k' :=
  ⟨h.user, hd.current ▸ hne, (hd.state p h.other hne).trans h.waiting,
    (hd.ticks p h.other hne).trans h.ticks⟩

lemma Asleep.same (h : Asleep p c k) (hs : Same k k') : Asleep p c k' :=
  ⟨h.user, hs.current ▸ h.other, (hs.state p).trans h.waiting, (hs.ticks p).trans h.ticks⟩

/-- The loop of the tick counts the sleeper down, unless it wakes it. -/
lemma Asleep.woken (h : Asleep p c k) (hc : c ≠ 2) : Asleep p (c - 1) k.woken := by
  refine ⟨h.user, h.other, ?_, ?_⟩
  · exact (woken_state (by decide)).mpr ⟨h.waiting, h.ticks ▸ hc⟩
  · rw [← h.ticks]
    rfl

/-- A tick on the way. -/
lemma Asleep.tick (h : Asleep p c k) (hc : c ≠ 2) (regs : UserRegs) :
    ∃ k' r, step k (.tick regs) = some (k', r) ∧ Asleep p (c - 1) k' := by
  have hw := h.woken hc
  rcases tick_cases regs k with ⟨-, -, -, hnone⟩ | ⟨k', j, htick, hnext, hd, -⟩ |
    ⟨k', u, htick, -, -, hsame⟩
  · exact absurd hw.waiting (hnone p)
  · refine ⟨k', _, by rw [step, handle, htick, Outcome.next], ?_⟩
    apply hw.dispatch hd
    rintro rfl
    have hready := hnext.ready
    rw [hw.waiting] at hready
    cases hready
  · exact ⟨k', _, by rw [step, handle, htick, Outcome.next], hw.same hsame⟩

/-- Any other event leaves the sleeper alone. -/
lemma Asleep.call (h : Asleep p c k) (he : e.Elsewhere p k) (htick : e.isTick = false) :
    ∃ k' r, step k e = some (k', r) ∧ Asleep p c k' := by
  obtain ⟨huser, hclone⟩ := he
  cases e with
  | tick regs => cases htick
  | exit t2 cpu =>
    rcases exit_cases t2 cpu huser with ⟨k', -, hall, hsame⟩ | ⟨-, k', j, hexit, hchosen, hd⟩
    · have hunused := hall p h.user
      rw [hsame p h.other, h.waiting] at hunused
      cases hunused
    · exact ⟨k', _, by rw [step, handle, hexit, Outcome.next],
        h.dispatch hd (h.ne_of_chosen hchosen)⟩
  | sleep ticks stack cpu =>
    obtain ⟨k', j, hsleep, hchosen, hd⟩ := sleep_cases ticks stack cpu huser
    exact ⟨k', _, by rw [step, handle, hsleep, Outcome.next],
      h.dispatch hd (h.ne_of_chosen hchosen)⟩
  | clone call =>
    obtain ⟨k', hret, hcur, -, hother⟩ := clone_cases call k
    have hsame := hother p (hclone call rfl).symm
    refine ⟨k', _, by rw [step, handle, hret, Outcome.next], h.user, hcur ▸ h.other, ?_, ?_⟩
    · rw [hsame, h.waiting]
    · rw [hsame, h.ticks]
  | alarm ticks =>
    obtain ⟨k', hret, hsame⟩ := doAlarm_same ticks k
    exact ⟨k', _, by rw [step, handle, hret, Outcome.next], h.same hsame⟩
  | signal signo handler =>
    obtain ⟨k', hret, hsame⟩ := signal_same signo handler k
    exact ⟨k', _, by rw [step, handle, hret, Outcome.next], h.same hsame⟩

/-- The tick that takes the counter to 1 makes the sleeper ready, and may dispatch it. -/
lemma Asleep.wakes (h : Asleep p 2 k) (regs : UserRegs) :
    ∃ k' r, step k (.tick regs) = some (k', r) ∧ ((k'.ctxs p).state = .ready ∨
      (k'.ctxs p).state = .running ∧ k'.current = p) := by
  have hready : (k.woken.ctxs p).state = .ready := woken_ready.mpr (Or.inr h.ticks)
  rcases tick_cases regs k with ⟨-, -, hnone, -⟩ | ⟨k', j, htick, hnext, hd, -⟩ |
    ⟨k', u, -, hnone, -⟩
  · exact absurd hready (pick_eq_none.mp hnone p h.user h.other)
  · refine ⟨k', _, by rw [step, handle, htick, Outcome.next], ?_⟩
    rcases eq_or_ne p j with rfl | hne
    · exact Or.inr ⟨hd.running, hd.current⟩
    · exact Or.inl ((hd.state p h.other hne).trans hready)
  · exact absurd hready (pick_eq_none.mp hnone p h.user h.other)

/-- A process that calls `do_sleep` sleeps afterwards. -/
lemma asleep_of_sleep (hcur : k.current ≠ 0)
    (h : step k (.sleep n stack cpu) = some (k', r)) : Asleep k.current (n + 1) k' := by
  have hne : k.current ≠ (pick k).getD 0 := (chosen_pick.ne hcur).symm
  obtain ⟨k₁, j, hsleep, hchosen, hd⟩ := sleep_cases n stack cpu hcur
  have hret : k₁ = k' := by
    rw [step, handle, hsleep, Outcome.next, Option.some.injEq, Prod.mk.injEq] at h
    exact h.1
  subst hret
  refine ⟨hcur, ?_, hd.left, ?_⟩
  · rw [hd.current]
    exact hd.ne.symm
  · simp only [step, handle, doSleep, Outcome.next, Option.some.injEq, Prod.mk.injEq] at h
    rw [← h.1]
    simp [hne]

end Steps

section Runs

/-- A sleeper that is not due sleeps on through a run. -/
lemma Asleep.run (h : Asleep p c k) (he : Along step (Event.Elsewhere p) k es)
    (hc : ∀ i < es.countP Event.isTick, c - BitVec.ofNat 32 i ≠ 2) :
    ∃ k' rs, run step k es = some (k', rs) ∧
      Asleep p (c - BitVec.ofNat 32 (es.countP Event.isTick)) k' := by
  induction es generalizing k c with
  | nil => exact ⟨k, [], rfl, by simpa using h⟩
  | cons e es ih =>
    cases htick : e.isTick with
    | false =>
      rw [List.countP_cons_of_neg (by simp [htick])] at hc ⊢
      obtain ⟨k₁, r, hstep, h₁⟩ := h.call he.1 htick
      obtain ⟨k', rs, hrun, h'⟩ := ih h₁ (he.2 k₁ r hstep) hc
      exact ⟨k', r :: rs, run_cons.mpr ⟨k₁, r, rs, hstep, hrun, rfl⟩, h'⟩
    | true =>
      obtain ⟨regs, rfl⟩ : ∃ regs, e = .tick regs := by
        cases e <;> simp [Event.isTick] at htick ⊢
      rw [List.countP_cons_of_pos htick] at hc ⊢
      obtain ⟨k₁, r, hstep, h₁⟩ := h.tick (by simpa using hc 0 (by omega)) regs
      have hsub : ∀ i, c - 1 - BitVec.ofNat 32 i = c - BitVec.ofNat 32 (i + 1) := by
        intro i
        bv_omega
      obtain ⟨k', rs, hrun, h'⟩ := ih h₁ (he.2 k₁ r hstep) fun i hi => by
        rw [hsub]
        exact hc (i + 1) (by omega)
      rw [hsub] at h'
      exact ⟨k', r :: rs, run_cons.mpr ⟨k₁, r, rs, hstep, hrun, rfl⟩, h'⟩

/-- A sleeper waits through all ticks but the last of the `n` it asked for, and the last one
makes it ready, in whatever way the other processes go on. -/
structure WakesOnTime (p : Pid) (n : BitVec 32) (k : Kernel) : Prop where
  waits : ∀ es, Along step (Event.Elsewhere p) k es → es.countP Event.isTick < max 1 n.toNat →
    ∃ k' rs, run step k es = some (k', rs) ∧ (k'.ctxs p).state = .waiting
  wakes : ∀ es regs, Along step (Event.Elsewhere p) k es →
    es.countP Event.isTick + 1 = max 1 n.toNat →
    ∃ k' rs, run step k (es ++ [.tick regs]) = some (k', rs) ∧ ((k'.ctxs p).state = .ready ∨
      (k'.ctxs p).state = .running ∧ k'.current = p)

lemma Asleep.wakesOnTime (h : Asleep p (n + 1) k) (hn : n ≠ 0) : WakesOnTime p n k := by
  have hpos : 0 < n.toNat := by bv_omega
  have hcount : ∀ {m i}, m < max 1 n.toNat → i < m → n + 1 - BitVec.ofNat 32 i ≠ 2 := by
    intro m i hm hi
    have hlt : i + 1 < n.toNat := by omega
    bv_omega
  refine ⟨fun es he hlt => ?_, fun es regs he heq => ?_⟩
  · obtain ⟨k', rs, hrun, h'⟩ := h.run he fun i hi => hcount hlt hi
    exact ⟨k', rs, hrun, h'.waiting⟩
  · obtain ⟨k₁, rs, hrun, h₁⟩ := h.run he fun i hi => hcount (by omega) hi
    have htwo : n + 1 - BitVec.ofNat 32 (es.countP Event.isTick) = 2 := by bv_omega
    rw [htwo] at h₁
    obtain ⟨k', r, hstep, hstate⟩ := h₁.wakes regs
    refine ⟨k', rs ++ [r], run_append.mpr ⟨k₁, rs, [r], hrun, ?_, rfl⟩, hstate⟩
    exact run_cons.mpr ⟨k', r, [], hstep, rfl, rfl⟩

/-- A counter of 1 goes to 0 first. -/
lemma Asleep.not_wakesOnTime (h : Asleep p 1 k) : ¬WakesOnTime p 0 k := by
  intro hwakes
  obtain ⟨k', rs, hrun, hstate⟩ := hwakes.wakes [] noRegs trivial rfl
  obtain ⟨k₁, r, hstep, h₁⟩ := h.tick (by decide) noRegs
  obtain ⟨k₂, r₂, rs₂, hstep₂, hrun₂, -⟩ := run_cons.mp hrun
  rw [hstep, Option.some.injEq, Prod.mk.injEq] at hstep₂
  cases hrun₂
  rw [← hstep₂.1, h₁.waiting] at hstate
  rcases hstate with hready | ⟨hrunning, -⟩
  · cases hready
  · cases hrunning

/-- A process that asks for at least one tick wakes at the right one; one that asks for none
does not. -/
theorem sleep_wakes_iff (k k' : Kernel) (n : BitVec 32) (stack : ℕ → Paging.Word) (cpu : Regs)
    (r : Option (Abi → UserRegs)) (hcur : k.current ≠ 0)
    (hsleep : step k (.sleep n stack cpu) = some (k', r)) :
    WakesOnTime k.current n k' ↔ n ≠ 0 := by
  have hasleep := asleep_of_sleep hcur hsleep
  constructor
  · rintro hwakes rfl
    exact hasleep.not_wakesOnTime hwakes
  · exact hasleep.wakesOnTime

/-- One process sleeps for three ticks. -/
theorem sleep_wakes_three : ∃ k' r,
    step bootTwo (.sleep 3 (fun _ => 0) noRegs.toRegs) = some (k', r) ∧
      WakesOnTime bootTwo.current 3 k' := by
  obtain ⟨k', r, hstep⟩ : ∃ k' r,
      step bootTwo (.sleep 3 (fun _ => 0) noRegs.toRegs) = some (k', r) := ⟨_, _, rfl⟩
  exact ⟨k', r, hstep, (sleep_wakes_iff bootTwo k' 3 (fun _ => 0) noRegs.toRegs r (by decide)
    hstep).mpr (by decide)⟩

/-- A process that asks for no tick sleeps past the first one. -/
theorem sleep_zero_oversleeps : ¬∀ (k k' : Kernel) (n : BitVec 32) (stack : ℕ → Paging.Word)
    (cpu : Regs) (r : Option (Abi → UserRegs)), k.current ≠ 0 →
      step k (.sleep n stack cpu) = some (k', r) → WakesOnTime k.current n k' := by
  intro hclaim
  obtain ⟨k', r, hstep⟩ : ∃ k' r,
      step bootTwo (.sleep 0 (fun _ => 0) noRegs.toRegs) = some (k', r) := ⟨_, _, rfl⟩
  have hasleep : Asleep bootTwo.current 1 k' := asleep_of_sleep (by decide) hstep
  exact hasleep.not_wakesOnTime (hclaim bootTwo k' 0 (fun _ => 0) noRegs.toRegs r (by decide) hstep)

end Runs

end OsAssignments.Scheduler
