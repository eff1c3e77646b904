import OsAssignments.Sleeping

/-!
# The alarm account

A tick counts down the alarm of the context that it interrupts, after the path that
switches to another context has left the handler. So a tick that switches costs the
process no alarm tick, and a counter that nobody set still reaches 0 after a full turn.
-/
namespace OsAssignments.Scheduler

open Machine

variable {k k' : Kernel} {e : Event} {p i j pid : Pid} {n c : BitVec 32} {es : List Event} {m : ℕ}
variable {regs : UserRegs} {r : Option (Abi → UserRegs)} {f : ExecContext → ExecContext}

section Ticks

/-- `alarm_config_time` and `ticks_to_alarm`. -/
def ExecContext.alarm (c : ExecContext) : BitVec 32 × BitVec 32 :=
  (c.alarmConfigTime, c.ticksToAlarm)

lemma offSchedule_alarm : OffSchedule ExecContext.alarm :=
  ⟨fun _ _ => rfl, fun _ _ => rfl, fun _ _ => rfl⟩

/-- How often `invoke_sync_signal(SIGALRM,..)` has been called for a process. -/
def Kernel.alarms (k : Kernel) (p : Pid) : ℕ := k.invoked.count (p, .alrm)

/-- A handler calls `invoke_sync_signal(SIGALRM,..)`. -/
def Raises (k : Kernel) (e : Event) : Prop :=
  (handle k e).kernel.invoked = (k.current, .alrm) :: k.invoked

/-- At a tick no other user context is ready, and none becomes ready. -/
def Solo (k : Kernel) : Prop :=
  ∀ j, j ≠ 0 → j ≠ k.current → (k.ctxs j).state ≠ .ready ∧ (k.ctxs j).ticksToSleep ≠ 2

/-- A tick that finds nobody ready or waiting, with the swapper. -/
def Done (k : Kernel) : Prop := k.current = 0 ∧ ∀ i, (k.woken.ctxs i).state ≠ .waiting

/-- The state in which a tick takes the counter of the running process to 0. -/
def Due (k : Kernel) : Prop := Solo k ∧ ¬Done k ∧ (k.ctxs k.current).ticksToAlarm = 1

instance (k : Kernel) : Decidable (Solo k) := inferInstanceAs (Decidable (∀ _, _))

instance (k : Kernel) : Decidable (Done k) := inferInstanceAs (Decidable (_ ∧ _))

instance (k : Kernel) : Decidable (Due k) := inferInstanceAs (Decidable (_ ∧ _))

lemma sub_one_eq_zero (w : BitVec 32) : w - 1 = 0 ↔ w = 1 := by
  constructor
  · intro h
    bv_omega
  · rintro rfl
    rfl

lemma done_iff : (wakeAll k).2 = 0 ∧ k.woken.current = 0 ↔ Done k := by
  rw [wakeAll_snd]
  exact and_comm

/-- The scan of a tick finds nobody exactly when the process is alone. -/
theorem pick_woken : pick k.woken = none ↔ Solo k := by
  rw [pick_eq_none]
  refine forall_congr' fun j => imp_congr_right fun _ => imp_congr_right fun _ => ?_
  exact awake_ready.not.trans not_or

/-- The kernel once the account has been charged with a tick. -/
def Kernel.charged (k : Kernel) : Kernel :=
  k.woken.modify k.current fun c => { c with ticksToAlarm := c.ticksToAlarm - 1 }

/-- The kernel once a counter that has run out starts again. -/
def Kernel.reloaded (k : Kernel) : Kernel :=
  k.charged.modify k.current fun c => { c with ticksToAlarm := c.alarmConfigTime }

/-- A tick that does not switch goes on to the account. -/
lemma tick_account (regs : UserRegs) (hsolo : Solo k) (hdone : ¬Done k) :
    handleTimerTick regs k =
      alarmAccount (pushes regs.toRegs) (frameOf regs) regs.toRegs k.woken := by
  have hpair : wakeAll k = (k.woken, (wakeAll k).2) := by rw [← wakeAll_fst]
  unfold handleTimerTick
  rw [hpair]
  dsimp only
  rw [pick_woken.mpr hsolo, if_neg fun h => hdone (done_iff.mp h.2), Option.getD_none,
    if_neg (by simp)]

/-- A tick with nothing left to run shuts the system down. -/
lemma tick_done (regs : UserRegs) (hsolo : Solo k) (hdone : Done k) :
    handleTimerTick regs k = .cleanup k.woken := by
  have hpair : wakeAll k = (k.woken, (wakeAll k).2) := by rw [← wakeAll_fst]
  unfold handleTimerTick
  rw [hpair]
  dsimp only
  have hzero : k.woken.current = 0 := hdone.1
  rw [pick_woken.mpr hsolo, if_pos ⟨rfl, done_iff.mpr hdone⟩, doExit, if_pos hzero]

lemma invokeSyncSignal_effect {signo : Signal} {x y ustack urip : Paging.Word}
    (h : invokeSyncSignal signo x y k = some (ustack, urip, k')) :
    k'.ctxs = k.ctxs ∧ k'.current = k.current ∧ k'.invoked = (k.current, signo) :: k.invoked := by
  unfold invokeSyncSignal at h
  dsimp only at h
  split_ifs at h <;> cases h <;> exact ⟨rfl, rfl, rfl⟩

/-- A tick that takes the counter to 0 resumes the process where `invoke_sync_signal` sends
it. -/
theorem tick_due (regs : UserRegs) (h : Due k) : ∃ ustack urip k',
    invokeSyncSignal .alrm (frameOf regs 4) (frameOf regs 1) k.reloaded = some (ustack, urip, k') ∧
      handleTimerTick regs k = .iretq k' (resume (pushes regs.toRegs)
        (Function.update (Function.update (frameOf regs) 4 ustack) 1 urip) regs.toRegs) := by
  obtain ⟨hsolo, hdone, hone⟩ := h
  obtain ⟨ustack, urip, k', hsignal, -⟩ := alarm_same (frameOf regs 4) (frameOf regs 1) k.reloaded
  have hzero : (k.charged.ctxs k.current).ticksToAlarm = 0 := by
    rw [Kernel.charged, Kernel.modify_ctxs, if_pos rfl]
    exact (sub_one_eq_zero _).mpr hone
  refine ⟨ustack, urip, k', hsignal, ?_⟩
  rw [tick_account regs hsolo hdone]
  unfold alarmAccount
  extract_lets k₁ k₂
  have hk₁ : k₁ = k.charged := rfl
  have hk₂ : k₂ = k.reloaded := rfl
  have hcur : k.charged.current = k.current := rfl
  rw [hk₂, hk₁, hcur, if_pos hzero, hsignal]

/-- A tick that neither switches nor takes the counter to 0 resumes the process where it was. -/
theorem tick_charges (regs : UserRegs) (hsolo : Solo k) (hdone : ¬Done k) (h : ¬Due k) :
    handleTimerTick regs k =
      .iretq k.charged (resume (pushes regs.toRegs) (frameOf regs) regs.toRegs) := by
  have hne : (k.charged.ctxs k.current).ticksToAlarm ≠ 0 := by
    intro hzero
    rw [Kernel.charged, Kernel.modify_ctxs, if_pos rfl] at hzero
    exact h ⟨hsolo, hdone, (sub_one_eq_zero _).mp hzero⟩
  rw [tick_account regs hsolo hdone]
  exact if_neg hne

/-- A tick that does not find the process alone switches. -/
lemma tick_crowded (regs : UserRegs) (h : ¬Solo k) :
    ∃ k' u, handleTimerTick regs k = .iretq k' u ∧ k'.invoked = k.invoked ∧
      ∀ {β : Type} (g : ExecContext → β), OffSchedule g → Kept g k k' := by
  obtain ⟨j, hpick⟩ := Option.ne_none_iff_exists'.mp fun hnone => h (pick_woken.mp hnone)
  obtain ⟨k', u, htick, -, hkept⟩ := tick_away regs hpick
  exact ⟨k', u, htick, hkept⟩

/-- A tick calls `invoke_sync_signal` when it takes the counter to 0, and else nobody does. -/
theorem handle_invoked (k : Kernel) (e : Event) : (handle k e).kernel.invoked =
    if e.isTick ∧ Due k then (k.current, .alrm) :: k.invoked else k.invoked := by
  cases e with
  | tick regs =>
    rw [handle]
    by_cases hdue : Due k
    · obtain ⟨ustack, urip, k', hsignal, htick⟩ := tick_due regs hdue
      rw [htick, if_pos ⟨rfl, hdue⟩]
      exact (invokeSyncSignal_effect hsignal).2.2
    rw [if_neg fun h => hdue h.2]
    by_cases hsolo : Solo k
    · by_cases hdone : Done k
      · rw [tick_done regs hsolo hdone]
        rfl
      · rw [tick_charges regs hsolo hdone hdue]
        rfl
    · obtain ⟨k', u, htick, hsame, -⟩ := tick_crowded regs hsolo
      rw [htick]
      exact hsame
  | exit t2 cpu =>
    rw [if_neg fun h => Bool.false_ne_true h.1, handle, doExit]
    extract_lets k₁ init k₂ k₃
    split_ifs <;> rfl
  | sleep ticks stack cpu => rfl
  | clone call => rfl
  | alarm ticks => rfl
  | signal signo handler => rfl

theorem raises_iff : Raises k e ↔ e.isTick = true ∧ Due k := by
  rw [Raises, handle_invoked]
  split_ifs with h
  · exact iff_of_true rfl h
  · exact iff_of_false (by simp) h

end Ticks

section Untouched

variable {β : Type} {g : ExecContext → β}

/-- A part of a context that neither the switches nor the alarms touch. -/
structure OffAlarm (g : ExecContext → β) : Prop extends OffSchedule g where
  alarm : ∀ c v w, g { c with alarmConfigTime := v, ticksToAlarm := w } = g c

lemma tick_kept (hg : OffAlarm g) (hstep : step k (.tick regs) = some (k', r)) : Kept g k k' := by
  by_cases hsolo : Solo k
  · by_cases hdone : Done k
    · rw [step, handle, tick_done regs hsolo hdone, Outcome.next] at hstep
      cases hstep
    have hcharged : Kept g k k.charged :=
      (hg.woken k).modify fun c => hg.alarm c c.alarmConfigTime _
    by_cases hdue : Due k
    · obtain ⟨ustack, urip, k₁, hsignal, htick⟩ := tick_due regs hdue
      rw [step, handle, htick, Outcome.next] at hstep
      cases hstep
      have hreloaded : Kept g k k.reloaded :=
        hcharged.modify fun c => hg.alarm c c.alarmConfigTime _
      intro i
      rw [(invokeSyncSignal_effect hsignal).1]
      exact hreloaded i
    · rw [step, handle, tick_charges regs hsolo hdone hdue, Outcome.next] at hstep
      cases hstep
      exact hcharged
  · obtain ⟨k₁, u, htick, -, hkept⟩ := tick_crowded regs hsolo
    rw [step, handle, htick, Outcome.next] at hstep
    cases hstep
    exact hkept g hg.toOffSchedule

/-- Clones and calls of `do_signal` apart, no event touches it. -/
lemma step_kept (hg : OffAlarm g) (hclone : ∀ call, e ≠ .clone call)
    (hsignal : ∀ signo handler, e ≠ .signal signo handler) (hstep : step k e = some (k', r)) :
    Kept g k k' := by
  cases e with
  | tick regs => exact tick_kept hg hstep
  | exit t2 cpu =>
    rw [step, handle] at hstep
    cases hexit : doExit t2 cpu k with
    | cleanup k₁ =>
      rw [hexit] at hstep
      cases hstep
    | iretq k₁ u =>
      rw [hexit] at hstep
      cases hstep
      exact exit_kept hg.toOffSchedule hexit
    | ret k₁ =>
      unfold doExit at hexit
      extract_lets k₂ init k₃ k₄ at hexit
      split_ifs at hexit
  | sleep ticks stack cpu =>
    obtain ⟨k₁, u, hsleep⟩ : ∃ k₁ u, doSleep ticks stack cpu k = .iretq k₁ u := ⟨_, _, rfl⟩
    rw [step, handle, hsleep, Outcome.next] at hstep
    cases hstep
    exact sleep_kept hg.toOffSchedule hsleep
  | clone call => exact absurd rfl (hclone call)
  | alarm ticks =>
    cases hstep
    exact (Kept.refl g k).modify fun c => hg.alarm c _ _
  | signal signo handler => exact absurd rfl (hsignal signo handler)

end Untouched

section Steps

/-- What a process lives through after its last `do_alarm`: system calls come from user
processes, it does not exit, and no clone takes its context. -/
def Event.Lives (p : Pid) (k : Kernel) (e : Event) : Prop :=
  e.FromUser k ∧ match e with
    | .tick _ | .sleep _ _ _ | .signal _ _ => True
    | .exit _ _ | .alarm _ => k.current ≠ p
    | .clone call => call.pid ≠ p

instance (p : Pid) (k : Kernel) : (e : Event) → Decidable (e.Lives p k)
  | .tick _ | .sleep _ _ _ | .signal _ _ => inferInstanceAs (Decidable (_ ∧ True))
  | .exit _ _ | .alarm _ => inferInstanceAs (Decidable (_ ∧ k.current ≠ p))
  | .clone call => inferInstanceAs (Decidable (_ ∧ call.pid ≠ p))

/-- A tick interrupts a process. -/
def Event.Interrupts (p : Pid) (k : Kernel) (e : Event) : Bool := e.isTick && k.current = p

/-- Events other than ticks leave the account of a process alone. -/
lemma call_accounts (he : e.Lives p k) (htick : e.isTick = false)
    (hstep : step k e = some (k', r)) : (k'.ctxs p).alarm = (k.ctxs p).alarm := by
  obtain ⟨huser, he⟩ := he
  cases e with
  | tick regs => cases htick
  | exit t2 cpu =>
    rcases exit_cases t2 cpu huser with ⟨k₁, hexit, -⟩ | ⟨-, k₁, j, hexit, -⟩ <;>
      rw [step, handle, hexit, Outcome.next] at hstep <;> cases hstep
    exact exit_kept offSchedule_alarm hexit p
  | sleep ticks stack cpu =>
    obtain ⟨k₁, j, hsleep, -⟩ := sleep_cases ticks stack cpu huser
    rw [step, handle, hsleep, Outcome.next] at hstep
    cases hstep
    exact sleep_kept offSchedule_alarm hsleep p
  | clone call =>
    obtain ⟨k₁, hclone, -, -, hother⟩ := clone_cases call k
    rw [step, handle, hclone, Outcome.next] at hstep
    cases hstep
    rw [hother p he.symm]
  | alarm ticks =>
    cases hstep
    rw [Kernel.modify_ctxs, if_neg he.symm]
  | signal signo handler =>
    cases hstep
    exact (Kept.refl ExecContext.alarm k).modify (f := fun c =>
      { c with sighandlers := Function.update c.sighandlers signo handler }) (fun _ => rfl) p

/-- What a tick does to the accounts. -/
theorem tick_accounts (hstep : step k (.tick regs) = some (k', r)) :
    (¬Solo k ∧ Kept ExecContext.alarm k k') ∨
    Solo k ∧ (Due k ↔ (k.ctxs k.current).ticksToAlarm = 1) ∧
      (k'.ctxs k.current).alarmConfigTime = (k.ctxs k.current).alarmConfigTime ∧
      (k'.ctxs k.current).ticksToAlarm = (if (k.ctxs k.current).ticksToAlarm = 1 then
        (k.ctxs k.current).alarmConfigTime else (k.ctxs k.current).ticksToAlarm - 1) ∧
      ∀ i, i ≠ k.current → (k'.ctxs i).alarm = (k.ctxs i).alarm := by
  by_cases hsolo : Solo k
  · by_cases hdone : Done k
    · rw [step, handle, tick_done regs hsolo hdone, Outcome.next] at hstep
      cases hstep
    have hiff : Due k ↔ (k.ctxs k.current).ticksToAlarm = 1 :=
      ⟨fun h => h.2.2, fun h => ⟨hsolo, hdone, h⟩⟩
    refine Or.inr ⟨hsolo, hiff, ?_⟩
    by_cases hdue : Due k
    · obtain ⟨ustack, urip, k₁, hsignal, htick⟩ := tick_due regs hdue
      rw [step, handle, htick, Outcome.next] at hstep
      cases hstep
      rw [if_pos (hiff.mp hdue), (invokeSyncSignal_effect hsignal).1]
      refine ⟨?_, ?_, fun i hi => ?_⟩
      · simp [Kernel.reloaded, Kernel.charged, Kernel.woken, awake]
      · simp [Kernel.reloaded, Kernel.charged, Kernel.woken, awake]
      · simp [Kernel.reloaded, Kernel.charged, Kernel.woken, awake, hi, ExecContext.alarm]
    · rw [step, handle, tick_charges regs hsolo hdone hdue, Outcome.next] at hstep
      cases hstep
      rw [if_neg fun h => hdue (hiff.mpr h)]
      refine ⟨?_, ?_, fun i hi => ?_⟩
      · simp [Kernel.charged, Kernel.woken, awake]
      · simp [Kernel.charged, Kernel.woken, awake]
      · simp [Kernel.charged, Kernel.woken, awake, hi, ExecContext.alarm]
  · obtain ⟨k₁, u, htick, -, hkept⟩ := tick_crowded regs hsolo
    rw [step, handle, htick, Outcome.next] at hstep
    cases hstep
    exact Or.inl ⟨hsolo, hkept _ offSchedule_alarm⟩

lemma exists_tick (h : e.Interrupts p k = true) : ∃ regs, e = .tick regs ∧ k.current = p := by
  cases e with
  | tick regs => exact ⟨regs, rfl, by simpa [Event.Interrupts, Event.isTick] using h⟩
  | exit t2 cpu => cases h
  | sleep ticks stack cpu => cases h
  | clone call => cases h
  | alarm ticks => cases h
  | signal signo handler => cases h

/-- A tick that interrupts a user process does not shut the system down. -/
lemma interrupts_step (hp : p ≠ 0) (h : e.Interrupts p k = true) :
    ∃ regs k' r, e = .tick regs ∧ k.current = p ∧ step k (.tick regs) = some (k', r) := by
  obtain ⟨regs, rfl, hcur⟩ := exists_tick h
  rcases tick_cases regs k with ⟨-, hzero, -⟩ | ⟨k', j, htick, -⟩ | ⟨k', u, htick, -⟩
  · exact absurd (hcur.symm.trans hzero) hp
  · exact ⟨regs, k', _, rfl, hcur, by rw [step, handle, htick, Outcome.next]⟩
  · exact ⟨regs, k', _, rfl, hcur, by rw [step, handle, htick, Outcome.next]⟩

/-- The calls of `invoke_sync_signal(SIGALRM,..)` for a process go up at the ticks that take its
counter to 0. -/
lemma handle_alarms (p : Pid) (k : Kernel) (e : Event) : (handle k e).kernel.alarms p =
    k.alarms p + if e.Interrupts p k ∧ Due k then 1 else 0 := by
  rw [Kernel.alarms, Kernel.alarms, handle_invoked]
  by_cases hcur : k.current = p
  · subst hcur
    simp only [Event.Interrupts, decide_true, Bool.and_true]
    split_ifs
    · exact List.count_cons_self
    · rfl
  · simp only [Event.Interrupts, hcur, decide_false, Bool.and_false, Bool.false_eq_true,
      false_and, if_false, Nat.add_zero]
    split_ifs
    · exact List.count_cons_of_ne fun h => hcur (congrArg Prod.fst h)
    · rfl

/-- An event that does not interrupt a process leaves its account alone. -/
lemma account_kept (he : e.Lives p k) (h : e.Interrupts p k = false)
    (hstep : step k e = some (k', r)) : (k'.ctxs p).alarm = (k.ctxs p).alarm := by
  cases htick : e.isTick with
  | false => exact call_accounts he htick hstep
  | true =>
    cases e with
    | tick regs =>
      have hcur : k.current ≠ p := by simpa [Event.Interrupts, Event.isTick] using h
      rcases tick_accounts hstep with ⟨-, hsame⟩ | ⟨-, -, -, -, hother⟩
      · exact hsame p
      · exact hother p hcur.symm
    | exit t2 cpu => cases htick
    | sleep ticks stack cpu => cases htick
    | clone call => cases htick
    | alarm ticks => cases htick
    | signal signo handler => cases htick

end Steps

section Runs

/-- In a run, with `m` ticks before it, the ticks that interrupt a process with the alarm `n` take
its counter down by one, but at the `n`-th, the `2n`-th and so on it starts again; these call
`invoke_sync_signal(SIGALRM,..)` for the process once, and no other event does. -/
def Accounted (p : Pid) (n : BitVec 32) : ℕ → Kernel → List Event → Prop
  | _, _, [] => True
  | m, k, e :: es =>
    let m' := if e.Interrupts p k then m + 1 else m
    ((handle k e).kernel.alarms p =
      k.alarms p + if e.Interrupts p k ∧ n.toNat ∣ m' then 1 else 0) ∧
    (e.Interrupts p k = true → ((handle k e).kernel.ctxs p).ticksToAlarm =
      if n.toNat ∣ m' then n else (k.ctxs p).ticksToAlarm - 1) ∧
    ∀ k' r, step k e = some (k', r) → Accounted p n m' k' es

/-- No event of a run calls `invoke_sync_signal(SIGALRM,..)` for a process. -/
def Unraised (p : Pid) : Kernel → List Event → Prop :=
  Along step fun k e => (handle k e).kernel.alarms p = k.alarms p

/-- A tick that interrupts a process finds nobody else to switch to. -/
def Unrivalled (p : Pid) (k : Kernel) (e : Event) : Prop := e.Interrupts p k = true → Solo k

instance (p : Pid) (k : Kernel) (e : Event) : Decidable (Unrivalled p k e) :=
  inferInstanceAs (Decidable (_ → _))

/-- The ticks of a run that interrupt a process and find nobody else to switch to. -/
def unrivalled (p : Pid) : Kernel → List Event → ℕ
  | _, [] => 0
  | k, e :: es =>
    match step k e with
    | none => 0
    | some (k', _) => (if e.Interrupts p k ∧ Solo k then 1 else 0) + unrivalled p k' es

lemma mod_succ_cases {n : ℕ} (hn : 0 < n) (m : ℕ) :
    n ∣ m + 1 ∧ m % n + 1 = n ∧ (m + 1) % n = 0 ∨
      ¬n ∣ m + 1 ∧ m % n + 1 < n ∧ (m + 1) % n = m % n + 1 := by
  have hlt := Nat.mod_lt m hn
  have hmod : (m + 1) % n = (m % n + 1) % n := (Nat.mod_add_mod m n 1).symm
  rw [Nat.dvd_iff_mod_eq_zero, hmod]
  rcases Nat.lt_or_ge (m % n + 1) n with h | h
  · rw [Nat.mod_eq_of_lt h]
    exact Or.inr ⟨by omega, h, rfl⟩
  · have heq : m % n + 1 = n := by omega
    rw [heq, Nat.mod_self]
    exact Or.inl ⟨rfl, rfl, rfl⟩

/-- The account of a process that `m` ticks have interrupted since it set its alarm to `n`. -/
structure Charged (p : Pid) (n : BitVec 32) (m : ℕ) (k : Kernel) : Prop where
  config : (k.ctxs p).alarmConfigTime = n
  ticks : (k.ctxs p).ticksToAlarm.toNat = n.toNat - m % n.toNat

lemma Charged.congr (h : Charged p n m k) (hsame : (k'.ctxs p).alarm = (k.ctxs p).alarm) :
    Charged p n m k' := by
  simp only [ExecContext.alarm, Prod.mk.injEq] at hsame
  exact ⟨hsame.1.trans h.config, hsame.2 ▸ h.ticks⟩

/-- A tick that interrupts a process and finds nobody else to switch to. -/
lemma Charged.tick (h : Charged p n m k) (hn : n ≠ 0) (hcur : k.current = p) (hsolo : Solo k)
    (hstep : step k (.tick regs) = some (k', r)) : (Due k ↔ n.toNat ∣ m + 1) ∧
      (k'.ctxs p).ticksToAlarm = (if n.toNat ∣ m + 1 then n else (k.ctxs p).ticksToAlarm - 1) ∧
      Charged p n (m + 1) k' := by
  subst hcur
  rcases tick_accounts hstep with ⟨hcrowd, -⟩ | ⟨-, hdue, hconfig, hticks, -⟩
  · exact absurd hsolo hcrowd
  have hpos : 0 < n.toNat := by bv_omega
  have hcount := h.ticks
  rcases mod_succ_cases hpos m with ⟨hdvd, hlast, hmod⟩ | ⟨hdvd, hbefore, hmod⟩
  · have hone : (k.ctxs k.current).ticksToAlarm = 1 := by bv_omega
    rw [if_pos hone, h.config] at hticks
    rw [if_pos hdvd]
    exact ⟨hdue.trans (iff_of_true hone hdvd), hticks, hconfig.trans h.config, by
      rw [hticks, hmod, Nat.sub_zero]⟩
  · have hone : (k.ctxs k.current).ticksToAlarm ≠ 1 := by bv_omega
    rw [if_neg hone] at hticks
    rw [if_neg hdvd]
    refine ⟨hdue.trans (iff_of_false hone hdvd), hticks, hconfig.trans h.config, ?_⟩
    rw [hticks, hmod]
    bv_omega

/-- The state that a step has reached. -/
lemma kernel_of_step (hstep : step k e = some (k', r)) : (handle k e).kernel = k' := by
  unfold step at hstep
  cases h : handle k e <;> rw [h] at hstep <;> cases hstep <;> rfl

/-- A step has one result. -/
lemma forall_step {Q : Kernel → Prop} (hstep : step k e = some (k', r)) :
    (∀ k₁ r₁, step k e = some (k₁, r₁) → Q k₁) ↔ Q k' := by
  refine ⟨fun h => h k' r hstep, fun h k₁ r₁ hstep₁ => ?_⟩
  rw [hstep, Option.some.injEq, Prod.mk.injEq] at hstep₁
  exact hstep₁.1 ▸ h

/-- The account of a process is right in a run exactly when no tick that interrupts it finds
somebody else to switch to. -/
theorem accounted_iff (hp : p ≠ 0) (hn : n ≠ 0) (h : Charged p n m k)
    (he : Along step (Event.Lives p) k es) :
    Accounted p n m k es ↔ Along step (Unrivalled p) k es := by
  induction es generalizing k m with
  | nil => exact Iff.rfl
  | cons e es ih =>
    cases hint : e.Interrupts p k with
    | false =>
      simp only [Accounted, Along, Unrivalled, handle_alarms, hint, Bool.false_eq_true, false_and,
        if_false, false_imp_iff, true_and]
      refine forall_congr' fun k' => forall_congr' fun r => imp_congr_right fun hstep => ?_
      exact ih (h.congr (account_kept he.1 hint hstep)) (he.2 k' r hstep)
    | true =>
      obtain ⟨regs, k', r, rfl, hcur, hstep⟩ := interrupts_step hp hint
      have hraised := handle_alarms p k (.tick regs)
      rw [kernel_of_step hstep] at hraised
      simp only [hint, true_and] at hraised
      simp only [Accounted, Along, Unrivalled, hint, if_true, true_and, forall_const,
        forall_step hstep, kernel_of_step hstep]
      by_cases hsolo : Solo k
      · obtain ⟨hdue, hticks, hcharged⟩ := h.tick hn hcur hsolo hstep
        rw [ih hcharged (he.2 k' r hstep), hraised, hticks]
        simp only [hdue, hsolo, true_and]
      · refine iff_of_false (fun hacc => ?_) fun hall => hsolo hall.1
        rcases tick_accounts hstep with ⟨-, hsame⟩ | ⟨hback, -⟩
        · -- the tick calls nothing and charges nothing
          obtain ⟨hcount, hafter, -⟩ := hacc
          rw [hraised, if_neg fun hdue : Due k => hsolo hdue.1] at hcount
          have hdvd : ¬n.toNat ∣ m + 1 := fun hdvd => by
            rw [if_pos hdvd] at hcount
            omega
          have hkept : (k'.ctxs p).ticksToAlarm = (k.ctxs p).ticksToAlarm :=
            congrArg Prod.snd (hsame p)
          rw [if_neg hdvd, hkept] at hafter
          bv_omega
        · exact hsolo hback

/-- How many ticks take a counter to 0. -/
def turns (w : BitVec 32) : ℕ := if w = 0 then 2 ^ 32 else w.toNat

lemma turns_pos (w : BitVec 32) : 0 < turns w := by
  unfold turns
  split_ifs with h
  · norm_num
  · bv_omega

lemma turns_sub_one {w : BitVec 32} (h : w ≠ 1) : turns (w - 1) + 1 = turns w := by
  unfold turns
  split_ifs <;> bv_omega

lemma turns_one : turns 1 = 1 := rfl

lemma unrivalled_cons (hstep : step k e = some (k', r)) : unrivalled p k (e :: es) =
    (if e.Interrupts p k = true ∧ Solo k then 1 else 0) + unrivalled p k' es := by
  rw [unrivalled, hstep]

lemma unraised_cons (hstep : step k e = some (k', r)) : Unraised p k (e :: es) ↔
    ¬(e.Interrupts p k = true ∧ Due k) ∧ Unraised p k' es := by
  refine and_congr ?_ (forall_step hstep)
  dsimp only
  rw [handle_alarms, Nat.add_eq_left, ite_eq_right_iff]
  exact ⟨fun h hdue => absurd (h hdue) one_ne_zero, fun h hdue => absurd hdue h⟩

/-- An event that charges nothing changes nothing. -/
lemma unraised_free (hstep : step k e = some (k', r))
    (hsame : (k'.ctxs p).alarm = (k.ctxs p).alarm)
    (haway : ¬(e.Interrupts p k = true ∧ Solo k))
    (hrest : Unraised p k' es ↔ unrivalled p k' es < turns (k'.ctxs p).ticksToAlarm) :
    Unraised p k (e :: es) ↔ unrivalled p k (e :: es) < turns (k.ctxs p).ticksToAlarm := by
  have hticks : (k'.ctxs p).ticksToAlarm = (k.ctxs p).ticksToAlarm := congrArg Prod.snd hsame
  rw [unraised_cons hstep, unrivalled_cons hstep, if_neg haway, Nat.zero_add, ← hticks, ← hrest]
  exact and_iff_right fun h => haway ⟨h.1, h.2.1⟩

/-- An event that calls `invoke_sync_signal` has a next state. -/
lemma step_of_due (hint : e.Interrupts p k = true) (hdue : Due k) :
    ∃ k' r, step k e = some (k', r) := by
  obtain ⟨regs, rfl, -⟩ := exists_tick hint
  obtain ⟨ustack, urip, k', -, htick⟩ := tick_due regs hdue
  exact ⟨k', _, by rw [step, handle, htick, Outcome.next]⟩

/-- A counter that is not set again calls `invoke_sync_signal` once it has gone down to 0. -/
theorem unraised_iff (he : Along step (Event.Lives p) k es) :
    Unraised p k es ↔ unrivalled p k es < turns (k.ctxs p).ticksToAlarm := by
  induction es generalizing k with
  | nil => exact iff_of_true trivial (turns_pos _)
  | cons e es ih =>
    cases hnext : step k e with
    | none =>
      have hquiet : ¬(e.Interrupts p k = true ∧ Due k) := fun h => by
        obtain ⟨k', r, hstep⟩ := step_of_due h.1 h.2
        rw [hnext] at hstep
        cases hstep
      refine iff_of_true ⟨?_, fun k' r hstep => ?_⟩ ?_
      · dsimp only
        rw [handle_alarms, if_neg hquiet, Nat.add_zero]
      · rw [hnext] at hstep
        cases hstep
      · rw [unrivalled, hnext]
        exact turns_pos _
    | some x =>
      obtain ⟨k', r⟩ := x
      have hrest := ih (he.2 k' r hnext)
      cases hint : e.Interrupts p k with
      | false => exact unraised_free hnext (account_kept he.1 hint hnext) (by simp [hint]) hrest
      | true =>
        obtain ⟨regs, rfl, hcur⟩ := exists_tick hint
        rcases tick_accounts hnext with ⟨hcrowd, hsame⟩ | ⟨hsolo, hdue, -, hticks, -⟩
        · exact unraised_free hnext (hsame p) (fun h => hcrowd h.2) hrest
        · rw [unraised_cons hnext, unrivalled_cons hnext, if_pos ⟨hint, hsolo⟩]
          rw [hcur] at hdue hticks
          by_cases hone : (k.ctxs p).ticksToAlarm = 1
          · rw [hone, turns_one]
            exact iff_of_false (fun h => h.1 ⟨hint, hdue.mpr hone⟩) (by omega)
          · have hturns := turns_sub_one hone
            rw [if_neg hone] at hticks
            rw [hticks] at hrest
            rw [and_iff_right fun h => hone (hdue.mp h.2), hrest]
            omega

lemma charged_of_alarm {k₀ : Kernel} (hcur : k₀.current = p)
    (h : step k₀ (.alarm n) = some (k, r)) : Charged p n 0 k := by
  subst hcur
  cases h
  refine ⟨?_, ?_⟩ <;> rw [Kernel.modify_ctxs, if_pos rfl]
  simp

/-- The account of an alarm is right exactly in the runs in which no tick that interrupts the
process finds another user context ready or about to wake; a process that sets no alarm gets none
exactly as long as fewer ticks find it so than its counter has left, a full turn for 0. -/
theorem alarm_account_iff (k : Kernel) (p : Pid) (es : List Event)
    (he : Along step (Event.Lives p) k es) :
    (∀ k₀ n r, p ≠ 0 → n ≠ 0 → k₀.current = p → step k₀ (.alarm n) = some (k, r) →
      (Accounted p n 0 k es ↔ Along step (Unrivalled p) k es)) ∧
    (∀ k₀ r, k₀.current = p → step k₀ (.alarm 0) = some (k, r) →
      (Unraised p k es ↔ unrivalled p k es < 2 ^ 32)) ∧
    (Unraised p k es ↔ unrivalled p k es < turns (k.ctxs p).ticksToAlarm) := by
  refine ⟨fun k₀ n r hp hn hcur h => ?_, fun k₀ r hcur h => ?_, unraised_iff he⟩
  · exact accounted_iff hp hn (charged_of_alarm hcur h) he
  · have hzero : (k.ctxs p).ticksToAlarm = 0 := by
      have hticks := (charged_of_alarm hcur h).ticks
      bv_omega
    rw [unraised_iff he, hzero]
    rfl

/-- A kernel whose running process has just set its alarm. -/
def alarmed (k : Kernel) (n : BitVec 32) : Kernel :=
  k.modify k.current fun c => { c with alarmConfigTime := n, ticksToAlarm := n }

/-- A process is interrupted, sleeps, and is interrupted again. -/
def alarmRun : List Event :=
  [.tick noRegs, .signal .alrm 4096, .sleep 1 (fun _ => 0) noRegs.toRegs, .tick noRegs,
    .tick noRegs, .tick noRegs]

/-- A process alone gets its alarm at every other tick that interrupts it. -/
theorem alarm_account_alone : Accounted 1 2 0 (alarmed boot 2) alarmRun :=
  ((alarm_account_iff (alarmed boot 2) 1 alarmRun (by decide +kernel)).1 boot 2 none (by decide)
    (by decide) rfl rfl).mpr (by decide +kernel)

/-- A tick that switches to a second process costs the first one an alarm tick. -/
theorem alarm_tick_lost : ¬∀ (k₀ k : Kernel) (p : Pid) (n : BitVec 32)
    (r : Option (Abi → UserRegs)) (es : List Event), p ≠ 0 → n ≠ 0 → k₀.current = p →
      step k₀ (.alarm n) = some (k, r) → Along step (Event.Lives p) k es →
        Accounted p n 0 k es := by
  intro hclaim
  have hlives : Along step (Event.Lives 1) (alarmed bootTwo 5) [.tick noRegs] :=
    ⟨⟨trivial, trivial⟩, fun _ _ _ => trivial⟩
  have hacc := hclaim bootTwo (alarmed bootTwo 5) 1 5 none [.tick noRegs] (by decide) (by decide)
    rfl rfl hlives
  have hcharged : Charged 1 5 0 (alarmed bootTwo 5) := ⟨rfl, rfl⟩
  rw [accounted_iff (by decide) (by decide) hcharged hlives] at hacc
  exact absurd (hacc.1 rfl) (by decide)

end Runs

end OsAssignments.Scheduler
