import OsAssignments.Dispatching
import OsAssignments.Machine

/-!
# The context that runs

Exactly one context is running, and it is the current one, as long as no tick finds a
counter at 2 where nobody sleeps: the tick takes every counter down by one, and makes
each context ready whose counter gets to 1.
-/
namespace OsAssignments.Scheduler

open Machine

variable {k k' : Kernel} {e : Event} {i j : Pid}

section Steps

/-- Exactly one context is running, and it is the current one. -/
def OneRunning (k : Kernel) : Prop := ∀ i, (k.ctxs i).state = .running ↔ i = k.current

/-- What an event must not break: one context is running before and after it, and a context
comes into use only through a clone. -/
structure Keeps (k : Kernel) (e : Event) : Prop where
  before : OneRunning k
  after : ∀ k' r, step k e = some (k', r) → OneRunning k'
  unused : ∀ k' r, step k e = some (k', r) → ∀ i, (k.ctxs i).state = .unused →
    (k'.ctxs i).state ≠ .unused → ∃ call, e = .clone call ∧ call.pid = i

/-- A tick finds the counter of no unused context at 2; it finds that of the running one at 2
only if it switches away from it or shuts the system down. -/
def Settled (k : Kernel) : Event → Prop
  | .tick _ => (∀ i, (k.ctxs i).ticksToSleep = 2 → (k.ctxs i).state ≠ .unused) ∧
      ((k.ctxs k.current).ticksToSleep = 2 →
        (∃ j, j ≠ 0 ∧ j ≠ k.current ∧
          ((k.ctxs j).state = .ready ∨ (k.ctxs j).ticksToSleep = 2)) ∨
        k.current = 0 ∧ ∀ i, (k.ctxs i).state ≠ .waiting)
  | .exit _ _ | .sleep _ _ _ | .clone _ | .alarm _ | .signal _ _ => True

instance (k : Kernel) : (e : Event) → Decidable (Settled k e)
  | .tick _ => inferInstanceAs (Decidable (_ ∧ _))
  | .exit _ _ | .sleep _ _ _ | .clone _ | .alarm _ | .signal _ _ => inferInstanceAs (Decidable True)

/-- One context is running, and the swapper is in use. -/
structure Tidy (k : Kernel) : Prop where
  one : OneRunning k
  swapper : (k.ctxs 0).state ≠ .unused

lemma OneRunning.current (h : OneRunning k) : (k.ctxs k.current).state = .running :=
  (h k.current).mpr rfl

/-- After a switch one context is running, if none but the one that ran was. -/
lemma Dispatch.oneRunning {s : ProcessState} (h : Dispatch k s j k') (hs : s ≠ .running)
    (hone : ∀ i, i ≠ k.current → (k.ctxs i).state ≠ .running) : OneRunning k' := by
  intro i
  rw [h.current]
  rcases eq_or_ne i j with rfl | hj
  · exact iff_of_true h.running rfl
  · refine iff_of_false ?_ hj
    rcases eq_or_ne i k.current with rfl | hi
    · rw [h.left]
      exact hs
    · rw [h.state i hi hj]
      exact hone i hi

lemma Same.oneRunning (h : Same k k') : OneRunning k' ↔ OneRunning k := by
  simp only [OneRunning, h.state, h.current]

lemma Chosen.ready_or_swapper (h : Chosen k j) : (k.ctxs j).state = .ready ∨ j = 0 :=
  h.imp Next.ready And.right

lemma keeps_of_none (hk : Tidy k) (hstep : step k e = none) : Keeps k e := by
  refine ⟨hk.one, fun k' r h => ?_, fun k' r h => ?_⟩ <;> rw [hstep] at h <;> cases h

lemma keeps_of_step {r : Option (Abi → UserRegs)} (hk : Tidy k) (hstep : step k e = some (k', r))
    (hone : OneRunning k')
    (hunused : ∀ i, (k.ctxs i).state = .unused → (k'.ctxs i).state = .unused) : Keeps k e := by
  refine ⟨hk.one, fun k'' r hstep' => ?_, fun k'' r hstep' i hi hused => ?_⟩ <;>
    rw [hstep, Option.some.injEq, Prod.mk.injEq] at hstep' <;> obtain ⟨rfl, -⟩ := hstep'
  · exact hone
  · exact absurd (hunused i hi) hused

/-- A tick takes no unused context into use. -/
lemma Keeps.tick_unused {regs : UserRegs} {r : Option (Abi → UserRegs)}
    (h : Keeps k (.tick regs)) (hstep : step k (.tick regs) = some (k', r)) (i : Pid)
    (hi : (k.ctxs i).state = .unused) : (k'.ctxs i).state = .unused := by
  by_contra hused
  obtain ⟨call, he, -⟩ := h.unused k' _ hstep i hi hused
  cases he

/-- A switch by a system call. -/
lemma keeps_of_dispatch {s : ProcessState} {u : Abi → UserRegs} (hk : Tidy k)
    (hstep : handle k e = .iretq k' u) (hs : s ≠ .running) (hj : Chosen k j)
    (h : Dispatch k s j k') : Keeps k e := by
  have hone : ∀ i, i ≠ k.current → (k.ctxs i).state ≠ .running :=
    fun i hi hrun => hi ((hk.one i).mp hrun)
  have hnext : step k e = some (k', some u) := by rw [step, hstep, Outcome.next]
  refine keeps_of_step hk hnext (h.oneRunning hs hone) fun i hunused => ?_
  have hi : i ≠ k.current := by
    rintro rfl
    rw [hk.one.current] at hunused
    cases hunused
  have hij : i ≠ j := by
    rintro rfl
    rcases hj.ready_or_swapper with hready | rfl
    · rw [hready] at hunused
      cases hunused
    · exact hk.swapper hunused
  rw [h.state i hi hij, hunused]

lemma keeps_of_same {r : Option (Abi → UserRegs)} (hk : Tidy k) (hstep : step k e = some (k', r))
    (h : Same k k') : Keeps k e :=
  keeps_of_step hk hstep (h.oneRunning.mpr hk.one) fun i hunused => (h.state i).trans hunused

lemma woken_ready : (k.woken.ctxs i).state = .ready ↔
    (k.ctxs i).state = .ready ∨ (k.ctxs i).ticksToSleep = 2 := awake_ready

lemma woken_state {s : ProcessState} (hs : s ≠ .ready) : (k.woken.ctxs i).state = s ↔
    (k.ctxs i).state = s ∧ (k.ctxs i).ticksToSleep ≠ 2 := awake_state hs

/-- What a tick leaves unused it found unused, with another counter. -/
lemma unused_kept_iff (h : ∀ i, (k.ctxs i).state = .unused →
      ((k'.ctxs i).state = .unused ↔ (k.woken.ctxs i).state = .unused)) :
    (∀ i, (k.ctxs i).state = .unused → (k'.ctxs i).state = .unused) ↔
      ∀ i, (k.ctxs i).ticksToSleep = 2 → (k.ctxs i).state ≠ .unused := by
  refine forall_congr' fun i => ?_
  constructor
  · intro hkept hticks hunused
    exact ((woken_state (by decide)).mp ((h i hunused).mp (hkept hunused))).2 hticks
  · intro hticks hunused
    exact (h i hunused).mpr ((woken_state (by decide)).mpr ⟨hunused, fun heq => hticks heq hunused⟩)

/-- A tick keeps one context running, and the unused ones unused, if and only if it is
settled. -/
lemma keeps_tick_iff {regs : UserRegs} (hk : Tidy k) :
    Keeps k (.tick regs) ↔ Settled k (.tick regs) := by
  have hrun := hk.one.current
  have hcur : ∀ i, (k.ctxs i).state = .unused → i ≠ k.current := by
    rintro i hunused rfl
    rw [hrun] at hunused
    cases hunused
  rcases tick_cases regs k with ⟨htick, hzero, hpick, hwait⟩ |
    ⟨k', j, htick, hnext, hdispatch, -⟩ | ⟨k', u, htick, hpick, hwait, hsame⟩
  -- the system shuts down
  · have hstep : step k (.tick regs) = none := by rw [step, handle, htick, Outcome.next]
    have hnone := pick_eq_none.mp hpick
    refine iff_of_true (keeps_of_none hk hstep)
      ⟨fun i hticks hunused => ?_, fun _ => Or.inr ⟨hzero, fun i hwaiting => ?_⟩⟩
    · exact hnone i (hzero ▸ hcur i hunused) (hcur i hunused) (woken_ready.mpr (Or.inr hticks))
    · refine hwait i ((woken_state (by decide)).mpr ⟨hwaiting, fun hticks => ?_⟩)
      have hi : i ≠ k.current := by
        rintro rfl
        rw [hrun] at hwaiting
        cases hwaiting
      exact hnone i (hzero ▸ hi) hi (woken_ready.mpr (Or.inr hticks))
  -- another context is ready
  · have hstep : step k (.tick regs) =
      some (k', some (switchTo j (k.ctxs j).regs regs.toRegs)) := by
      rw [step, handle, htick, Outcome.next]
    have hother : (∃ j, j ≠ 0 ∧ j ≠ k.current ∧
        ((k.ctxs j).state = .ready ∨ (k.ctxs j).ticksToSleep = 2)) :=
      ⟨j, hnext.user, hnext.other, woken_ready.mp hnext.ready⟩
    have hone : OneRunning k' := hdispatch.oneRunning (by decide) fun i hi hwoken =>
      hi ((hk.one i).mp ((woken_state (by decide)).mp hwoken).1)
    have hunused : ∀ i, (k.ctxs i).state = .unused →
        ((k'.ctxs i).state = .unused ↔ (k.woken.ctxs i).state = .unused) := by
      intro i hi
      rcases eq_or_ne i j with rfl | hij
      · rw [hdispatch.running, hnext.ready]
        simp
      · rw [hdispatch.state i (hcur i hi) hij]
    have hsettled : Settled k (.tick regs) ↔
        ∀ i, (k.ctxs i).ticksToSleep = 2 → (k.ctxs i).state ≠ .unused :=
      and_iff_left fun _ => Or.inl hother
    rw [hsettled, ← unused_kept_iff hunused]
    exact ⟨fun hkeeps => hkeeps.tick_unused hstep, fun hkept => keeps_of_step hk hstep hone hkept⟩
  -- the current context goes on
  · have hstep : step k (.tick regs) = some (k', some u) := by
      rw [step, handle, htick, Outcome.next]
    have hone : OneRunning k' ↔ (k.ctxs k.current).ticksToSleep ≠ 2 := by
      rw [hsame.oneRunning]
      constructor
      · intro h
        exact ((woken_state (by decide)).mp h.current).2
      · intro hticks i
        rw [woken_state (by decide), hk.one i]
        exact and_iff_left_of_imp fun hi => hi ▸ hticks
    have hsettled : Settled k (.tick regs) ↔
        (∀ i, (k.ctxs i).ticksToSleep = 2 → (k.ctxs i).state ≠ .unused) ∧
          (k.ctxs k.current).ticksToSleep ≠ 2 := by
      refine and_congr_right fun _ => imp_congr_right fun hticks => iff_false_intro ?_
      rintro (⟨j, huser, hother, hready⟩ | ⟨hzero, hwaiting⟩)
      · exact pick_eq_none.mp hpick j huser hother (woken_ready.mpr hready)
      · obtain ⟨i, hi⟩ := hwait hzero
        exact hwaiting i ((woken_state (by decide)).mp hi).1
    rw [hsettled, ← hone, ← unused_kept_iff fun i _ => by rw [hsame.state i]]
    exact ⟨fun hkeeps => ⟨hkeeps.tick_unused hstep, hkeeps.after k' _ hstep⟩,
      fun hkept => keeps_of_step hk hstep hkept.2 hkept.1⟩

/-- An exit, in which the scan finds another context or falls back to the swapper. -/
lemma keeps_exit {t2 : Frame} {cpu : Regs} (hk : Tidy k) (hcur : k.current ≠ 0) :
    Keeps k (.exit t2 cpu) := by
  rcases exit_cases t2 cpu hcur with ⟨k', hexit, -⟩ |
    ⟨-, k', j, hexit, hchosen, hdispatch⟩
  · exact keeps_of_none hk (by rw [step, handle, hexit, Outcome.next])
  · exact keeps_of_dispatch hk hexit (by decide) hchosen hdispatch

lemma keeps_clone {call : CloneCall} (hk : Tidy k) (hfresh : (Event.clone call).Fresh k) :
    Keeps k (.clone call) := by
  obtain ⟨k', hclone, hcur, hready, hother⟩ := clone_cases call k
  have hstep : step k (.clone call) = some (k', none) := by rw [step, handle, hclone, Outcome.next]
  have hpid : call.pid ≠ k.current := by
    intro heq
    have hunused := hfresh.2
    rw [heq, hk.one.current] at hunused
    cases hunused
  refine ⟨hk.one, fun k'' r hstep' => ?_, fun k'' r hstep' i hi hused => ?_⟩ <;>
    rw [hstep, Option.some.injEq, Prod.mk.injEq] at hstep' <;> obtain ⟨rfl, -⟩ := hstep'
  · intro i
    rw [hcur]
    rcases eq_or_ne i call.pid with rfl | hi
    · rw [hready]
      exact iff_of_false (by decide) hpid
    · rw [hother i hi, hk.one i]
  · refine ⟨call, rfl, ?_⟩
    by_contra hne
    rw [hother i (Ne.symm hne)] at hused
    exact hused hi

/-- An event keeps one context running if and only if it is settled. -/
theorem keeps_iff (hk : Tidy k) (hvalid : e.Valid k) : Keeps k e ↔ Settled k e := by
  cases e with
  | tick regs => exact keeps_tick_iff hk
  | exit t2 cpu => exact iff_of_true (keeps_exit hk hvalid.1) trivial
  | sleep ticks stack cpu =>
    obtain ⟨k', j, hsleep, hchosen, hdispatch⟩ :=
      sleep_cases ticks stack cpu hvalid.1
    exact iff_of_true (keeps_of_dispatch hk hsleep (by decide) hchosen hdispatch) trivial
  | clone call => exact iff_of_true (keeps_clone hk hvalid.2) trivial
  | alarm ticks =>
    obtain ⟨k', halarm, hsame⟩ := doAlarm_same ticks k
    exact iff_of_true (keeps_of_same hk (by rw [step, handle, halarm, Outcome.next]) hsame) trivial
  | signal signo handler =>
    obtain ⟨k', hsignal, hsame⟩ := signal_same signo handler k
    exact iff_of_true (keeps_of_same hk (by rw [step, handle, hsignal, Outcome.next]) hsame) trivial

/-- A switch leaves the swapper in use. -/
lemma Dispatch.swapper {s : ProcessState} (h : Dispatch k s j k') (hk : (k.ctxs 0).state ≠ .unused)
    (hs : k.current = 0 → s = .ready) : (k'.ctxs 0).state ≠ .unused := by
  rcases eq_or_ne 0 k.current with hcur | hcur
  · have hleft := h.left
    rw [← hcur, hs hcur.symm] at hleft
    simp [hleft]
  · rcases eq_or_ne 0 j with rfl | hj
    · simp [h.running]
    · rwa [h.state 0 hcur hj]

/-- The swapper stays in use. -/
lemma swapper_kept {r : Option (Abi → UserRegs)} (hk : (k.ctxs 0).state ≠ .unused)
    (hvalid : e.Valid k) (hstep : step k e = some (k', r)) : (k'.ctxs 0).state ≠ .unused := by
  have hwoken : (k.woken.ctxs 0).state ≠ .unused := fun h => hk ((woken_state (by decide)).mp h).1
  cases effect_of_step hvalid.1 hstep with
  | ticked hnext h => exact h.swapper hwoken fun _ => rfl
  | stayed hsame => rwa [hsame.state]
  | switched hcur hs hchosen h => exact h.swapper hk fun hzero => absurd hzero hcur
  | cloned hcur hready hother => rwa [hother 0 hvalid.2.1.symm]
  | kept hsame => rwa [hsame.state]

end Steps

section Runs

/-- One user process runs and is the current context, the swapper is ready, and all other
contexts are unused. -/
structure Started (k : Kernel) : Prop where
  user : k.current ≠ 0
  running : (k.ctxs k.current).state = .running
  swapper : (k.ctxs 0).state = .ready
  unused : ∀ i, i ≠ 0 → i ≠ k.current → (k.ctxs i).state = .unused

lemma Started.tidy (h : Started k) : Tidy k := by
  refine ⟨fun i => ?_, by simp [h.swapper]⟩
  rcases eq_or_ne i k.current with rfl | hi
  · exact iff_of_true h.running rfl
  · refine iff_of_false ?_ hi
    rcases eq_or_ne i 0 with rfl | hzero
    · simp [h.swapper]
    · simp [h.unused i hzero hi]

/-- Over every run: one context is running at each step, and contexts come into use through
clones only, if and only if every tick is settled. -/
theorem one_running_iff (k : Kernel) (hk : Started k) (es : List Event)
    (hvalid : Along step (fun k e => e.Valid k) k es) :
    Along step Keeps k es ↔ Along step Settled k es := by
  rw [← and_iff_right (a := Along step (fun k e => e.Valid k) k es) (b := Along step Keeps k es)
    hvalid, ← and_iff_right (b := Along step Settled k es) hvalid, ← along_and, ← along_and]
  refine Along.congr (D := fun _ => True) (I := Tidy) (fun s e hs _ => ?_)
    (fun s e s' r hs _ hgood hstep => ?_) hk.tidy fun _ _ => trivial
  · exact and_congr_right fun hvalid => keeps_iff hs hvalid
  · exact ⟨((keeps_iff hs hgood.1).mpr hgood.2).after s' r hstep,
      swapper_kept hs.swapper hgood.1 hstep⟩

def noRegs : UserRegs :=
  ⟨⟨0, 0, 0, 0, 0, 0, 0, 0, 0, 0, 0, 0, 0, 0, 0⟩, 0, 0, 0, 0, 0⟩

/-- The first user process runs, and no counter is set. -/
def boot : Kernel where
  ctxs i :=
    { type := 0, usedMem := 0, pgd := 0, osStackPfn := 0, osRsp := 0, mms := fun _ => ⟨0, 0, 0, 0⟩
      state := if i = 0 then .ready else if i = 1 then .running else .unused
      name := fun _ => 0, regs := noRegs, pendingSignalBitmap := 0, sighandlers := fun _ => 0
      ticksToSleep := 0, alarmConfigTime := 0, ticksToAlarm := 0 }
  current := 1
  user := fun _ => 0
  invoked := []

lemma boot_started : Started boot :=
  ⟨by decide, rfl, rfl, fun i hzero hcur => by
    have hone : i ≠ 1 := hcur
    simp only [boot, if_neg hzero, if_neg hone]⟩

/-- A clone of the current process into context `pid`. -/
def cloneInto (pid : Pid) : CloneCall := ⟨pid, 0, 0, 0, fun _ => 0, fun _ => 0⟩

/-- The first process clones itself; ticks go between the two, and the clone sleeps and wakes. -/
def cloneRun : List Event :=
  [.clone (cloneInto 2), .tick noRegs, .tick noRegs, .tick noRegs,
    .sleep 2 (fun _ => 0) noRegs.toRegs, .tick noRegs, .tick noRegs, .tick noRegs]

theorem one_running_iff_boot : Along step Keeps boot cloneRun :=
  (one_running_iff boot boot_started cloneRun (by decide +kernel)).mpr (by decide +kernel)

/-- One user process after `n` ticks, each of which took all counters down. -/
structure Ticked (n : ℕ) (k : Kernel) : Prop where
  started : Started k
  ticks : ∀ i, (k.ctxs i).ticksToSleep = 0 - BitVec.ofNat 32 n

lemma Ticked.next {n : ℕ} (h : Ticked n k) (hn : n < 2 ^ 32 - 2) (regs : UserRegs) :
    ∃ k' r, step k (.tick regs) = some (k', r) ∧ Ticked (n + 1) k' := by
  have hticks : ∀ i, (k.ctxs i).ticksToSleep ≠ 2 := by
    intro i heq
    rw [h.ticks i] at heq
    bv_omega
  have hcur := h.started.user
  have hready : ∀ i, i ≠ 0 → (k.woken.ctxs i).state ≠ .ready := by
    intro i hi hwoken
    have hstate := (woken_ready.mp hwoken).resolve_right (hticks i)
    rcases eq_or_ne i k.current with rfl | hicur
    · rw [h.started.running] at hstate
      cases hstate
    · rw [h.started.unused i hi hicur] at hstate
      cases hstate
  rcases tick_cases regs k with ⟨-, hzero, -⟩ | ⟨k', j, -, hnext, -⟩ |
    ⟨k', u, htick, -, -, hsame⟩
  · exact absurd hzero hcur
  · exact absurd hnext.ready (hready j hnext.user)
  · have hstate : ∀ i s, s ≠ .ready → (k.ctxs i).state = s → (k'.ctxs i).state = s := by
      intro i s hs hi
      rw [hsame.state]
      exact (woken_state hs).mpr ⟨hi, hticks i⟩
    have hkcur : k'.current = k.current := hsame.current
    refine ⟨k', some u, by rw [step, handle, htick, Outcome.next], ⟨?_, ?_, ?_, ?_⟩, fun i => ?_⟩
    · rwa [hkcur]
    · rw [hkcur]
      exact hstate _ _ (by decide) h.started.running
    · rw [hsame.state]
      exact woken_ready.mpr (Or.inl h.started.swapper)
    · rw [hkcur]
      exact fun i hi hicur => hstate i _ (by decide) (h.started.unused i hi hicur)
    · have hwoken : (k.woken.ctxs i).ticksToSleep = (k.ctxs i).ticksToSleep - 1 := rfl
      rw [hsame.ticks, hwoken, h.ticks i]
      bv_omega

/-- Ticks alone, up to the one that finds the counters at 2. -/
lemma Ticked.run (regs : UserRegs) (h : Ticked 0 k) (n : ℕ) (hn : n ≤ 2 ^ 32 - 2) :
    ∃ k' rs, Machine.run step k (List.replicate n (.tick regs)) = some (k', rs) ∧
      Ticked n k' := by
  induction n with
  | zero => exact ⟨k, [], rfl, h⟩
  | succ n ih =>
    obtain ⟨k₁, rs, hrun, h₁⟩ := ih (by omega)
    obtain ⟨k', r, hstep, h'⟩ := h₁.next (by omega) regs
    refine ⟨k', rs ++ [r], ?_, h'⟩
    rw [List.replicate_succ']
    exact run_append.mpr ⟨k₁, rs, [r], hrun, run_cons.mpr ⟨k', r, [], hstep, rfl, rfl⟩, rfl⟩

/-- After 2 ^ 32 - 1 ticks contexts that were never cloned are ready. -/
theorem unused_woken : ¬∀ (k : Kernel) (_ : Started k)
    (_ : ∀ i, (k.ctxs i).ticksToSleep = 0 ∧ (k.ctxs i).alarmConfigTime = 0 ∧
      (k.ctxs i).ticksToAlarm = 0) (es : List Event) (_ : Along step (fun k e => e.Valid k) k es),
    Along step Keeps k es := by
  intro hclaim
  have hkeeps := hclaim boot boot_started (fun _ => ⟨rfl, rfl, rfl⟩)
    (List.replicate (2 ^ 32 - 2) (.tick noRegs) ++ [.tick noRegs]) (along_of_forall fun e he s => by
      rw [← List.replicate_succ'] at he
      rw [List.eq_of_mem_replicate he]
      exact ⟨trivial, trivial⟩)
  obtain ⟨k, rs, hrun, hk⟩ := Ticked.run (k := boot) noRegs ⟨boot_started, fun _ => rfl⟩ _ le_rfl
  have hlast := ((along_append.mp hkeeps).2 k rs hrun).1
  have hsettled := (keeps_iff (e := .tick noRegs) hk.started.tidy ⟨trivial, trivial⟩).mp hlast
  obtain ⟨i, hzero, hcur⟩ : ∃ i : Pid, i ≠ 0 ∧ i ≠ k.current := by
    by_cases h : k.current = 1
    · exact ⟨2, by decide, by rw [h]; decide⟩
    · exact ⟨1, by decide, Ne.symm h⟩
  exact hsettled.1 i ((hk.ticks i).trans rfl) (hk.started.unused i hzero hcur)

end Runs

end OsAssignments.Scheduler
