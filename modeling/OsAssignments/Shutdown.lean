import OsAssignments.RunningContext

/-!
# The system shuts down when no process is left

Whatever the counters hold, no context other than the current one is running. So the
counts of the tick and of the exit see every user process that is left.
-/
namespace OsAssignments.Scheduler

open Machine

variable {k k' : Kernel} {e : Event} {i j : Pid} {es : List Event}

/-- No context but the current one is running. -/
def Alone (k : Kernel) : Prop := ∀ i, i ≠ k.current → (k.ctxs i).state ≠ .running

/-- The system shuts down with no user process left, and with the last one that exits. -/
structure ShutsDown (k : Kernel) (e : Event) : Prop where
  alone : Alone k
  left : ∀ k', handle k e = .cleanup k' → ∀ i, i ≠ 0 →
    (k'.ctxs i).state ≠ .ready ∧ (k'.ctxs i).state ≠ .running ∧ (k'.ctxs i).state ≠ .waiting
  last : ∀ t2 cpu, e = .exit t2 cpu →
    (∀ i, i ≠ 0 → i ≠ k.current → (k.ctxs i).state = .unused) → ∃ k', handle k e = .cleanup k'

section Steps

lemma Alone.woken (h : Alone k) : Alone k.woken :=
  fun i hi hrun => h i hi ((woken_state (by decide)).mp hrun).1

lemma Dispatch.alone {s : ProcessState} (h : Dispatch k s j k') (hs : s ≠ .running)
    (hk : Alone k) : Alone k' := by
  intro i hi hrun
  exact hi ((h.oneRunning hs hk i).mp hrun)

lemma Same.alone (h : Same k k') (hk : Alone k) : Alone k' := by
  intro i hi
  rw [h.state]
  exact hk i (h.current ▸ hi)

/-- Every event leaves the other contexts not running. -/
lemma alone_kept {r : Option (Abi → UserRegs)} (hk : Alone k) (hvalid : e.Valid k)
    (hstep : step k e = some (k', r)) : Alone k' := by
  cases effect_of_step hvalid.1 hstep with
  | ticked hnext h => exact h.alone (by decide) hk.woken
  | stayed hsame => exact hsame.alone hk.woken
  | switched hcur hs hchosen h => exact h.alone hs hk
  | @cloned call k' hcur hready hother =>
    intro i hi
    rcases eq_or_ne i call.pid with rfl | hne
    · simp [hready]
    · rw [hother i hne]
      exact hk i (hcur ▸ hi)
  | kept hsame => exact hsame.alone hk

/-- A tick of the swapper shuts the system down when the scan and the count find nothing. -/
lemma shutsDown_tick {regs : UserRegs} (hk : Alone k) : ShutsDown k (.tick regs) := by
  refine ⟨hk, fun k' hcleanup i hi => ?_, fun t2 cpu he => nomatch he⟩
  rw [handle] at hcleanup
  rcases tick_cases regs k with ⟨htick, hzero, hpick, hwait⟩ |
    ⟨k₁, j, htick, -⟩ | ⟨k₁, u, htick, -⟩ <;> rw [htick] at hcleanup <;> cases hcleanup
  have hcur : i ≠ k.woken.current := fun heq => hi (heq.trans hzero)
  exact ⟨pick_eq_none.mp hpick i hi hcur, hk.woken i hcur, hwait i⟩

/-- An exit shuts the system down when the count finds all user contexts unused. -/
lemma shutsDown_exit {t2 : Frame} {cpu : Regs} (hk : Alone k) (hcur : k.current ≠ 0) :
    ShutsDown k (.exit t2 cpu) := by
  rcases exit_cases t2 cpu hcur with ⟨k₁, hexit, hall, -⟩ |
    ⟨⟨i, hi, hicur, hused⟩, k₁, j, hexit, -⟩
  · refine ⟨hk, fun k' hcleanup i hi => ?_, fun _ _ _ _ => ⟨k₁, hexit⟩⟩
    rw [handle, hexit] at hcleanup
    cases hcleanup
    simp [hall i hi]
  · refine ⟨hk, fun k' hcleanup => ?_, fun _ _ _ hunused => absurd (hunused i hi hicur) hused⟩
    rw [handle, hexit] at hcleanup
    cases hcleanup

lemma shutsDown_of_valid (hk : Alone k) (hvalid : e.Valid k) : ShutsDown k e := by
  cases e with
  | tick regs => exact shutsDown_tick hk
  | exit t2 cpu => exact shutsDown_exit hk hvalid.1
  | sleep ticks stack cpu => exact ⟨hk, fun k' h => (nomatch h), fun t2 cpu he => (nomatch he)⟩
  | clone call => exact ⟨hk, fun k' h => (nomatch h), fun t2 cpu he => (nomatch he)⟩
  | alarm ticks => exact ⟨hk, fun k' h => (nomatch h), fun t2 cpu he => (nomatch he)⟩
  | signal signo handler => exact ⟨hk, fun k' h => (nomatch h), fun t2 cpu he => (nomatch he)⟩

end Steps

/-- In every run the system shuts down only when no user process is left, it does so when the
last one exits, and no context but the current one is ever running. -/
theorem shutdown_when_empty (k : Kernel) (hk : Started k) (es : List Event)
    (hvalid : Along step (fun k e => e.Valid k) k es) :
    Along step ShutsDown k es ∧ ∀ k' rs, run step k es = some (k', rs) → Alone k' := by
  have halone : Alone k := fun i hi hrun => hi ((hk.tidy.one i).mp hrun)
  have hkept : ∀ k e k' r, Alone k → e.Valid k → step k e = some (k', r) → Alone k' :=
    fun _ _ _ _ h hvalid hstep => alone_kept h hvalid hstep
  exact ⟨hvalid.of_invariant hkept (fun _ _ h hvalid => shutsDown_of_valid h hvalid) halone,
    fun k' rs hrun => hvalid.invariant hkept halone hrun⟩

theorem shutdown_when_empty_boot :
    ShutsDown boot (.exit (fun _ => 0) noRegs.toRegs) ∧
      ∃ k', handle boot (.exit (fun _ => 0) noRegs.toRegs) = .cleanup k' := by
  have hdown := (shutdown_when_empty boot boot_started [.exit (fun _ => 0) noRegs.toRegs]
    ⟨⟨boot_started.user, trivial⟩, fun _ _ _ => trivial⟩).1.1
  exact ⟨hdown, hdown.last _ _ rfl boot_started.unused⟩

end OsAssignments.Scheduler
