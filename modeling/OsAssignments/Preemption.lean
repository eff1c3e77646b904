import OsAssignments.Starvation

/-!
# Preemption and the registers

A tick saves all registers of the process that it switches away from, and nothing changes
them while other processes run. Only `do_sleep` may bring all of them back: the other two
ways to switch call functions after the registers have been loaded. And `do_sleep` brings
back those only that no later line overwrites with the operand that it fetches.
-/
namespace OsAssignments.Scheduler

open Machine

variable {k k' k₁ k₂ : Kernel} {e : Event} {p i j : Pid} {es : List Event}
variable {regs r : UserRegs} {cpu : Regs} {u : Abi → UserRegs} {operand : Reg → Reg} {a b : Reg}

section Loading

lemma Regs.get_set {w : Paging.Word} : (cpu.set w a).get b = if b = a then w else cpu.get b := by
  cases a <;> cases b <;> rfl

/-- A line leaves its operand in its register, and in the one that the operand went through. -/
lemma get_loadReg :
    (loadReg operand r cpu a).get b = if b = a ∨ b = operand a then r.get a else cpu.get b := by
  simp only [loadReg, Regs.get_set, if_true]
  by_cases ha : b = a
  · simp [ha]
  · by_cases ho : b = operand a <;> simp [ha, ho]

/-- A register holds the operand of the last line that writes to it. -/
lemma get_lines (l : List Reg) (cpu : Regs) : (l.foldl (loadReg operand r) cpu).get a =
    (l.reverse.find? fun line => a = line ∨ a = operand line).elim (cpu.get a) r.get := by
  induction l generalizing cpu with
  | nil => rfl
  | cons b l ih =>
    rw [List.foldl_cons, ih, List.reverse_cons, List.find?_append, get_loadReg]
    cases l.reverse.find? fun line => a = line ∨ a = operand line with
    | some line => rfl
    | none =>
      by_cases hb : a = b ∨ a = operand b
      · simp [hb]
      · simp [hb]

/-- The line that writes a register last: its own, or a later one whose operand goes through it. -/
def lastLine (operand : Reg → Reg) (a : Reg) : Reg :=
  (loadOrder.reverse.find? fun line => a = line ∨ a = operand line).getD a

lemma get_loadRegs : (loadRegs operand r cpu).get a = r.get (lastLine operand a) := by
  have hmem : a ∈ loadOrder.reverse := by cases a <;> decide
  rw [loadRegs, get_lines, lastLine]
  cases hfind : loadOrder.reverse.find? fun line => a = line ∨ a = operand line with
  | some line => rfl
  | none =>
    have hnone := List.find?_eq_none.mp hfind a hmem
    simp at hnone

/-- Every register holds the same word as the one whose line writes to it last. -/
def Spared (operand : Reg → Reg) (regs : UserRegs) : Prop :=
  ∀ a, regs.get (lastLine operand a) = regs.get a

/-- When all operands go through `rax`, the line of `rdi` is the last that writes to it. -/
theorem spared_rax_iff : Spared (fun _ => .rax) regs ↔ regs.rax = regs.rdi := by
  constructor
  · intro h
    exact (h .rax).symm
  · intro h a
    cases a
    case rax => exact h.symm
    all_goals rfl

end Loading

section Restoring

/-- With its frame on the stack a process is back when its registers are. -/
lemma leave_eq_iff : leave (frameOf r) cpu = r ↔ ∀ a, cpu.get a = r.get a := by
  constructor
  · intro h a
    have hget : (leave (frameOf r) cpu).get a = cpu.get a := by cases a <;> rfl
    rw [← hget, h]
  · intro h
    exact UserRegs.ext (h .r15) (h .r14) (h .r13) (h .r12) (h .r11) (h .r10) (h .r9) (h .r8) rfl
      (h .rdi) (h .rsi) (h .rdx) (h .rcx) (h .rbx) (h .rax) rfl rfl rfl rfl rfl

/-- `do_sleep` restores what is saved, but for what the operands overwrite. -/
lemma sleepTo_eq_iff (abi : Abi) :
    sleepTo p (frameOf r) r cpu abi = r ↔ Spared abi.sleepOperand r := by
  rw [sleepTo, leave_eq_iff]
  exact forall_congr' fun a => by rw [get_loadRegs]

/-- A call that leaves a word in `rdi`. -/
def clobber (w : Paging.Word) : Call where
  run c := { c with rdi := w }
  rbx _ := rfl
  rbp _ := rfl
  r12 _ := rfl
  r13 _ := rfl
  r14 _ := rfl
  r15 _ := rfl

/-- Functions that keep no more registers than they have to. -/
def clobbering (operand : Reg → Reg) (w : Paging.Word) : Abi where
  address _ := 0
  body := id
  tickOperand := operand
  exitOperand := operand
  sleepOperand := operand
  setTssStackPtr := clobber w
  setCurrentCtx := clobber w
  ackIrq := clobber w

/-- A switch that leaves the word of the last call in `rdi` does not restore it. -/
lemma not_restored_of_rdi (h : ∀ w, (u (clobbering operand w)).rdi = w) :
    ¬∀ abi : Abi, abi.sleepOperand = operand → u abi = regs := by
  intro hall
  have hrdi := h (regs.rdi + 1)
  rw [hall (clobbering operand (regs.rdi + 1)) rfl] at hrdi
  bv_omega

end Restoring

section Waiting

/-- A process that a tick switched away from, with the registers it had. -/
structure Saved (k : Kernel) (p : Pid) (regs : UserRegs) : Prop where
  ready : Ready k p
  regs : (k.ctxs p).regs = regs

lemma Dispatch.saved {s : ProcessState} (h : Dispatch k s j k') (hp : Saved k p regs)
    (hne : k'.current ≠ p) : Saved k' p regs :=
  ⟨⟨hp.ready.user, hne.symm, h.stays_ready hp.ready hne.symm⟩,
    (h.regs p hp.ready.other).trans hp.regs⟩

lemma Same.saved (h : Same k k') (hp : Saved k p regs) : Saved k' p regs :=
  ⟨⟨hp.ready.user, h.current ▸ hp.ready.other, (h.state p).trans hp.ready.ready⟩,
    (h.regs p).trans hp.regs⟩

lemma Saved.woken (hp : Saved k p regs) : Saved k.woken p regs :=
  ⟨⟨hp.ready.user, hp.ready.other, woken_ready.mpr (Or.inl hp.ready.ready)⟩, hp.regs⟩

/-- The tick that switches away. -/
lemma saved_of_tick {o : Option (Abi → UserRegs)} (huser : k.current ≠ 0)
    (hstep : step k (.tick regs) = some (k', o)) (hne : k'.current ≠ k.current) :
    Saved k' k.current regs := by
  rw [step, handle] at hstep
  rcases tick_cases regs k with ⟨htick, -⟩ | ⟨k₁, j, htick, -, h, hregs⟩ |
    ⟨k₁, u, htick, -, -, hsame⟩ <;> rw [htick, Outcome.next] at hstep <;> cases hstep
  · exact ⟨⟨huser, hne.symm, h.left⟩, hregs⟩
  · exact absurd hsame.current hne

/-- Events of other processes leave it alone until it is switched back to. -/
lemma saved_kept {o : Option (Abi → UserRegs)} (hp : Saved k p regs) (hvalid : e.Valid k)
    (hstep : step k e = some (k', o)) (hne : k'.current ≠ p) : Saved k' p regs := by
  cases effect_of_step hvalid.1 hstep with
  | ticked hnext h => exact h.saved hp.woken hne
  | stayed hsame => exact hsame.saved hp.woken
  | switched hcur hs hchosen h => exact h.saved hp hne
  | @cloned call k' hcur hready hother =>
    have hpid : p ≠ call.pid := by
      rintro rfl
      have hunused := hvalid.2.2
      rw [hp.ready.ready] at hunused
      cases hunused
    refine ⟨⟨hp.ready.user, hne.symm, ?_⟩, ?_⟩ <;> rw [hother p hpid]
    · exact hp.ready.ready
    · exact hp.regs
  | kept hsame => exact hsame.saved hp

/-- What the event that switches back leaves in the registers. -/
lemma restored_iff (hp : Saved k p regs) (hvalid : e.Valid k)
    (hstep : step k e = some (k', some u)) (hcur : k'.current = p) (operand : Reg → Reg) :
    (∀ abi : Abi, abi.sleepOperand = operand → u abi = regs) ↔
      (∃ ticks stack cpu, e = .sleep ticks stack cpu) ∧ Spared operand regs := by
  unfold step at hstep
  cases e with
  | tick regs' =>
    refine iff_of_false ?_ (by rintro ⟨⟨_, _, _, he⟩, -⟩; cases he)
    rcases tick_cases regs' k with ⟨htick, -⟩ | ⟨k₁, j, htick, -⟩ |
      ⟨k₁, u, htick, -, -, hsame⟩ <;> rw [handle, htick, Outcome.next] at hstep <;> cases hstep
    · exact not_restored_of_rdi fun _ => rfl
    · exact absurd (hsame.current.symm.trans hcur) hp.ready.other.symm
  | exit t2 cpu =>
    refine iff_of_false ?_ (by rintro ⟨⟨_, _, _, he⟩, -⟩; cases he)
    rcases exit_cases t2 cpu hvalid.1 with ⟨k₁, hexit, -⟩ |
      ⟨-, k₁, j, hexit, -⟩ <;> rw [handle, hexit, Outcome.next] at hstep <;> cases hstep
    exact not_restored_of_rdi fun _ => rfl
  | sleep ticks stack cpu =>
    obtain ⟨k₁, j, hsleep, -, h⟩ :=
      sleep_cases ticks stack cpu hvalid.1
    rw [handle, hsleep, Outcome.next] at hstep
    cases hstep
    obtain rfl : j = p := h.current.symm.trans hcur
    rw [hp.regs, and_iff_right ⟨ticks, stack, cpu, rfl⟩]
    simp only [sleepTo_eq_iff]
    exact ⟨fun hall => hall (clobbering operand 0) rfl, fun hspared abi habi => habi ▸ hspared⟩
  | clone call => cases hstep
  | alarm ticks => cases hstep
  | signal signo handler => cases hstep

end Waiting

section Runs

/-- A tick interrupts a user process with the registers `regs` and switches away from it, other
processes run through the events `es`, and then the event `e` switches back to it with the
registers `u`. -/
def Resumed (k : Kernel) (regs : UserRegs) (es : List Event) (e : Event) (u : Abi → UserRegs) :
    Prop :=
  k.current ≠ 0 ∧ ∃ k₁ o k₂ rs k₃, step k (.tick regs) = some (k₁, o) ∧
    Along step (fun s e => e.Valid s ∧ s.current ≠ k.current) k₁ es ∧
    run step k₁ es = some (k₂, rs) ∧ k₂.current ≠ k.current ∧
    e.Valid k₂ ∧ step k₂ e = some (k₃, some u) ∧ k₃.current = k.current

/-- What is saved stays so in a run that does not switch back. -/
lemma saved_of_run {rs : List (Option (Abi → UserRegs))} (hp : k₁.current ≠ p → Saved k₁ p regs)
    (hes : Along step (fun s e => e.Valid s ∧ s.current ≠ p) k₁ es)
    (hrun : run step k₁ es = some (k₂, rs)) (hne : k₂.current ≠ p) : Saved k₂ p regs := by
  refine (hes.invariant (I := fun s => s.current ≠ p → Saved s p regs)
    (fun s e s' o hs hgood hstep hs' => ?_) hp hrun) hne
  exact saved_kept (hs hgood.2) hgood.1 hstep hs'

/-- A preempted process finds all its registers and its frame as they were, whatever the
functions do that are called on the way, if and only if it is switched back to by a sleep, and
every register held the same word as the one whose line writes to it last. -/
theorem resumed_iff_sleep (k : Kernel) (regs : UserRegs) (es : List Event) (e : Event)
    (u : Abi → UserRegs) (h : Resumed k regs es e u) (operand : Reg → Reg) :
    (∀ abi : Abi, abi.sleepOperand = operand → u abi = regs) ↔
      (∃ ticks stack cpu, e = .sleep ticks stack cpu) ∧ Spared operand regs := by
  obtain ⟨huser, k₁, o, k₂, rs, k₃, htick, hes, hrun, hne, hvalid, hstep, hcur⟩ := h
  have hsaved : Saved k₂ k.current regs :=
    saved_of_run (fun hne₁ => saved_of_tick huser htick hne₁) hes hrun hne
  exact restored_iff hsaved hvalid hstep hcur operand

/-- Two processes take turns. -/
structure Turns (k : Kernel) : Prop where
  current : k.current = 2
  ready : (k.ctxs 1).state = .ready
  others : ∀ i, i ≠ 0 → i ≠ 1 → i ≠ 2 →
    (k.ctxs i).state = .unused ∧ (k.ctxs i).ticksToSleep ≠ 2

lemma turns_tick (regs : UserRegs) :
    ∃ k' o, step bootTwo (.tick regs) = some (k', o) ∧ Turns k' := by
  obtain ⟨k', htick, h, -⟩ := tick_switch (k := bootTwo) (j := 2) regs (by decide)
  refine ⟨k', some _, by rw [step, handle, htick, Outcome.next], h.current, h.left, ?_⟩
  intro i hzero hone htwo
  rw [h.state i hone htwo, h.ticks i hone htwo]
  have hctx : bootTwo.ctxs i = boot.ctxs i := by rw [bootTwo, Kernel.modify_ctxs, if_neg htwo]
  refine ⟨(woken_state (by decide)).mpr ?_, ?_⟩
  · rw [hctx]
    exact ⟨boot_started.unused i hzero hone, by simp [boot]⟩
  · change (bootTwo.ctxs i).ticksToSleep - 1 ≠ 2
    rw [hctx]
    simp [boot]

lemma Turns.next (h : Turns k) (hj : Next k j) : j = 1 := by
  by_contra hne
  have hready := hj.ready
  rw [(h.others j hj.user hne (h.current ▸ hj.other)).1] at hready
  cases hready

lemma Turns.sleep (h : Turns k) : ∃ k' u,
    step k (.sleep 0 (fun _ => 0) noRegs.toRegs) = some (k', some u) ∧ k'.current = 1 := by
  obtain ⟨k', j, hsleep, hchosen, hdispatch⟩ := sleep_cases 0 (fun _ => 0) noRegs.toRegs
    (k := k) (by rw [h.current]; decide)
  refine ⟨k', _, by rw [step, handle, hsleep, Outcome.next], ?_⟩
  rw [hdispatch.current]
  rcases hchosen with hnext | ⟨hnone, -⟩
  · exact h.next hnext
  · exact absurd h.ready (pick_eq_none.mp hnone 1 (by decide) (by rw [h.current]; decide))

lemma Turns.woken (h : Turns k) (hj : Next k.woken j) : j = 1 := by
  by_contra hne
  obtain ⟨hstate, hticks⟩ := h.others j hj.user hne (h.current ▸ hj.other)
  rcases woken_ready.mp hj.ready with hready | htwo
  · rw [hstate] at hready
    cases hready
  · exact hticks htwo

lemma Turns.tick (h : Turns k) : ∃ k' u,
    step k (.tick noRegs) = some (k', some u) ∧ k'.current = 1 := by
  obtain ⟨j, hj⟩ := pick_isSome (k := k.woken) (p := 1) (by decide)
    (by change 1 ≠ k.current; rw [h.current]; decide) (woken_ready.mpr (Or.inl h.ready))
  obtain ⟨k', htick, hdispatch, -⟩ := tick_switch noRegs hj
  refine ⟨k', _, by rw [step, handle, htick, Outcome.next], ?_⟩
  rw [hdispatch.current]
  exact h.woken (pick_eq_some hj)

/-- Registers that differ, but for `rax` and `rdi`. -/
def sharedRegs : UserRegs :=
  ⟨⟨15, 14, 13, 12, 11, 10, 9, 8, 7, 1, 6, 5, 4, 3, 1⟩, 0x100000000, 0x23, 0x202, 0x7ff000000,
    0x2b⟩

/-- The second process goes to sleep, and all operands go through `rax`. -/
theorem resumed_iff_sleep_two : ∃ u, Resumed bootTwo sharedRegs []
    (.sleep 0 (fun _ => 0) noRegs.toRegs) u ∧
      ∀ abi : Abi, abi.sleepOperand = (fun _ => .rax) → u abi = sharedRegs := by
  obtain ⟨k₁, o, htick, hturns⟩ := turns_tick sharedRegs
  obtain ⟨k', u, hsleep, hcur⟩ := hturns.sleep
  have huser : k₁.current ≠ 0 := by rw [hturns.current]; decide
  have hother : k₁.current ≠ bootTwo.current := by rw [hturns.current]; decide
  have hresumed : Resumed bootTwo sharedRegs [] (.sleep 0 (fun _ => 0) noRegs.toRegs) u :=
    ⟨by decide, k₁, o, k₁, [], k', htick, trivial, rfl, hother, ⟨huser, trivial⟩, hsleep, hcur⟩
  exact ⟨u, hresumed, (resumed_iff_sleep bootTwo sharedRegs []
    (.sleep 0 (fun _ => 0) noRegs.toRegs) u hresumed fun _ => .rax).mpr
      ⟨⟨_, _, _, rfl⟩, spared_rax_iff.mpr rfl⟩⟩

/-- A tick that switches back may leave another word in `rdi`. -/
theorem rdi_lost : ¬∀ (k : Kernel) (regs : UserRegs) (es : List Event) (e : Event)
    (u : Abi → UserRegs) (_ : Resumed k regs es e u), ∀ abi, u abi = regs := by
  intro hclaim
  obtain ⟨k₁, o, htick, hturns⟩ := turns_tick noRegs
  obtain ⟨k', u, htick', hcur⟩ := hturns.tick
  have hother : k₁.current ≠ bootTwo.current := by rw [hturns.current]; decide
  have hvalid : (Event.tick noRegs).Valid k₁ := ⟨trivial, trivial⟩
  have hall := hclaim bootTwo noRegs [] (.tick noRegs) u ⟨by decide, k₁, o, k₁, [], k', htick,
    trivial, rfl, hother, hvalid, htick', hcur⟩
  have hsaved := saved_of_tick (by decide) htick hother
  obtain ⟨⟨_, _, _, he⟩, -⟩ := (restored_iff hsaved hvalid htick' hcur id).mp fun abi _ => hall abi
  cases he

end Runs

end OsAssignments.Scheduler
