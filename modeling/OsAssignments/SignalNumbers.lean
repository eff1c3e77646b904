import OsAssignments.Alarms
import OsAssignments.RecordLayout

/-!
# Signal numbers

`do_signal` stores the handler at `sighandlers[signo]` whatever the number, and the three
handlers are followed in the record by the counters for sleep and alarm. A number outside
the array does no harm only when the store finds the same bytes there.
-/
namespace OsAssignments.Scheduler

open Machine
open Paging (Word)

variable {k k' : Kernel} {p q : Pid} {signo : ℤ} {handler : Word} {s : Signal}
variable {r : Option (Abi → UserRegs)} {regs : UserRegs} {P : Placement}

/-- The signal of a number from 0 to `MAX_SIGNALS - 1`. -/
def Signal.ofInt (signo : ℤ) : Option Signal :=
  if signo = 0 then some .segv else if signo = 1 then some .fpe
  else if signo = 2 then some .alrm else none

/-- `do_signal`, for any number: `current->sighandlers[signo]=handler`. -/
def doSignalAt (P : Placement) (signo : ℤ) (handler : Word) (k : Kernel) : Option Kernel :=
  P.store (P.start k.current + handlersAt + signo) handler k

/-- The kernel with a handler of the running process set. -/
def Kernel.handled (k : Kernel) (s : Signal) (handler : Word) : Kernel :=
  k.modify k.current fun c => { c with sighandlers := Function.update c.sighandlers s handler }

section Numbers

lemma find_handler (hs : Signal.ofInt signo = some s) :
    P.find (P.start p + handlersAt + signo) = some (p, .handler s) := by
  rw [Placement.find_eq_some]
  unfold Signal.ofInt at hs
  split_ifs at hs with h0 h1 h2 <;> cases hs
  · exact ⟨48, rfl, by rw [h0, handlersAt]; omega⟩
  · exact ⟨49, rfl, by rw [h1, handlersAt]; omega⟩
  · exact ⟨50, rfl, by rw [h2, handlersAt]; omega⟩

/-- For the number of a signal it is the call of the model. -/
theorem doSignalAt_valid (hs : Signal.ofInt signo = some s) :
    doSignalAt P signo handler k = some (k.handled s handler) ∧
      doSignal s handler k = .ret (k.handled s handler) := by
  refine ⟨?_, rfl⟩
  rw [doSignalAt, Placement.store, find_handler hs]
  rfl

end Numbers

section Requests

/-- What happens to the kernel: an event, or a call of `do_signal` with any number. -/
inductive Request
  | event (e : Event)
  | signal (signo : ℤ) (handler : Word)

/-- A request that is not a call of `do_signal` with a number outside the array. -/
def Request.valid : Request → Bool
  | .event _ => true
  | .signal signo _ => (Signal.ofInt signo).isSome

def serve (P : Placement) (k : Kernel) : Request → Option (Kernel × Option (Abi → UserRegs))
  | .event e => step k e
  | .signal signo handler => (doSignalAt P signo handler k).map fun k => (k, none)

/-- What can be seen of the schedule. -/
inductive Sight
  | dispatched (pid : Pid)
  | alarm (pid : Pid)
  deriving DecidableEq

/-- What is seen of a request that takes `k` to `k'`. -/
def seen (k k' : Kernel) : List Sight :=
  (if k'.invoked = (k.current, .alrm) :: k.invoked then [.alarm k.current] else []) ++
    if k'.current ≠ k.current then [.dispatched k'.current] else []

/-- The contexts dispatched and the alarms delivered in a run. -/
def sights (P : Placement) : Kernel → List Request → List Sight
  | _, [] => []
  | k, x :: xs =>
    match serve P k x with
    | some (k', _) => seen k k' ++ sights P k' xs
    | none => []

/-- The handlers registered last, by context: a clone starts with those of its parent. -/
def registered (k : Kernel) (reg : Pid → Signal → Word) : Request → Pid → Signal → Word
  | .event (.clone call) => Function.update reg call.pid (reg k.current)
  | .event (.signal s handler) =>
    Function.update reg k.current (Function.update (reg k.current) s handler)
  | .event _ => reg
  | .signal signo handler =>
    match Signal.ofInt signo with
    | some s => Function.update reg k.current (Function.update (reg k.current) s handler)
    | none => reg

/-- A signal goes to the handler registered last, and so does the alarm of a tick. -/
structure Delivers (reg : Pid → Signal → Word) (k : Kernel) : Prop where
  enters : ∀ s ustack urip, reg k.current s ≠ 0 →
    ∃ k', invokeSyncSignal s ustack urip k = some (ustack - 8, reg k.current s, k')
  ticks : ∀ regs, Raises k (.tick regs) → reg k.current .alrm ≠ 0 →
    ∃ k', handleTimerTick regs k = .iretq k' (resume (pushes regs.toRegs)
      (Function.update (Function.update (frameOf regs) 4 (regs.entryRsp - 8)) 1
        (reg k.current .alrm)) regs.toRegs)

/-- A call of `do_signal` alters the handler of a valid number, and nothing else. -/
def Harmless (P : Placement) (k : Kernel) : Request → Prop
  | .event _ => True
  | .signal signo handler => ∃ k', doSignalAt P signo handler k = some k' ∧
      k'.current = k.current ∧ k'.user = k.user ∧ k'.invoked = k.invoked ∧
      ∀ p, k'.ctxs p = match Signal.ofInt signo with
        | some s => (k.handled s handler).ctxs p
        | none => k.ctxs p

/-- A number is that of a signal, or the handler has the bytes of the members at its place. -/
def Silent (P : Placement) (k : Kernel) : Request → Prop
  | .event _ => True
  | .signal signo handler => (Signal.ofInt signo).isSome = true ∨
      ∃ p part, P.find (P.start k.current + handlersAt + signo) = some (p, part) ∧
        Holds p (k.ctxs p) handler part

/-- No call of `do_signal` in a run does harm, and signals go where they should. -/
def Undisturbed (P : Placement) : (Pid → Signal → Word) → Kernel → List Request → Prop
  | reg, k, [] => Delivers reg k
  | reg, k, x :: xs => Delivers reg k ∧ Harmless P k x ∧
      ∀ k' r, serve P k x = some (k', r) → Undisturbed P (registered k reg x) k' xs

end Requests

section Steps

lemma Kernel.ext_ctxs (hctxs : ∀ p, k'.ctxs p = k.ctxs p) (hcur : k'.current = k.current)
    (huser : k'.user = k.user) (hinvoked : k'.invoked = k.invoked) : k' = k := by
  cases k
  cases k'
  simp only [Kernel.mk.injEq]
  exact ⟨funext hctxs, hcur, huser, hinvoked⟩

/-- A call with a number outside the array that finds its bytes there changes nothing. -/
lemma silent_kept (hs : Signal.ofInt signo = none) (h : Silent P k (.signal signo handler)) :
    doSignalAt P signo handler k = some k := by
  rw [doSignalAt, Placement.store_eq_self]
  simpa [Silent, hs] using h

theorem harmless_iff (x : Request) : Harmless P k x ↔ Silent P k x := by
  cases x with
  | event e => exact Iff.rfl
  | signal signo handler =>
    cases hs : Signal.ofInt signo with
    | some s =>
      simp only [Harmless, hs]
      refine iff_of_true ⟨k.handled s handler, (doSignalAt_valid hs).1, rfl, rfl, rfl, fun _ => rfl⟩
        ?_
      exact Or.inl (by rw [hs]; rfl)
    | none =>
      simp only [Harmless, hs]
      constructor
      · rintro ⟨k', hstore, hcur, huser, hinvoked, hctxs⟩
        have hsame : k' = k := Kernel.ext_ctxs hctxs hcur huser hinvoked
        rw [hsame, doSignalAt, Placement.store_eq_self] at hstore
        exact Or.inr hstore
      · intro h
        exact ⟨k, silent_kept hs h, rfl, rfl, rfl, fun _ => rfl⟩

lemma offAlarm_sighandlers : OffAlarm ExecContext.sighandlers :=
  ⟨⟨fun _ _ => rfl, fun _ _ => rfl, fun _ _ => rfl⟩, fun _ _ _ => rfl⟩

/-- The handlers of the contexts are those registered last. -/
def Current (reg : Pid → Signal → Word) (k : Kernel) : Prop := ∀ p, (k.ctxs p).sighandlers = reg p

lemma handled_current {reg : Pid → Signal → Word} (h : Current reg k) :
    Current (Function.update reg k.current (Function.update (reg k.current) s handler))
      (k.handled s handler) := by
  intro p
  rw [Kernel.handled, Kernel.modify_ctxs, Function.update_apply]
  split_ifs with hp
  · rw [h k.current]
  · exact h p

/-- An event registers a handler when it is a call of `do_signal` or a clone, and else none. -/
lemma step_current {reg : Pid → Signal → Word} {e : Event} (h : Current reg k)
    (hstep : step k e = some (k', r)) : Current (registered k reg (.event e)) k' := by
  have hkept : (∀ call, e ≠ .clone call) → (∀ s handler, e ≠ .signal s handler) →
      Current reg k' := fun hclone hsignal p =>
    (step_kept offAlarm_sighandlers hclone hsignal hstep p).trans (h p)
  cases e with
  | tick regs => exact hkept (by simp) (by simp)
  | exit t2 cpu => exact hkept (by simp) (by simp)
  | sleep ticks stack cpu => exact hkept (by simp) (by simp)
  | alarm ticks => exact hkept (by simp) (by simp)
  | signal s handler =>
    cases hstep
    exact handled_current h
  | clone call =>
    cases hstep
    intro p
    rw [Kernel.modify_ctxs, registered, Function.update_apply]
    split_ifs with hp
    · exact h k.current
    · exact h p

lemma serve_current {reg : Pid → Signal → Word} {x : Request} (h : Current reg k)
    (hsilent : Silent P k x) (hserve : serve P k x = some (k', r)) :
    Current (registered k reg x) k' := by
  cases x with
  | event e => exact step_current h hserve
  | signal signo handler =>
    cases hs : Signal.ofInt signo with
    | some s =>
      rw [serve, (doSignalAt_valid hs).1] at hserve
      cases hserve
      simp only [registered, hs]
      exact handled_current h
    | none =>
      rw [serve, silent_kept hs hsilent] at hserve
      cases hserve
      simp only [registered, hs]
      exact h

/-- A registered handler is entered. -/
lemma Current.delivers {reg : Pid → Signal → Word} (h : Current reg k) : Delivers reg k where
  enters s ustack urip hne := by
    rw [← h k.current] at hne ⊢
    unfold invokeSyncSignal
    exact ⟨_, if_pos hne⟩
  ticks regs hraised hne := by
    obtain ⟨ustack, urip, k', hsignal, htick⟩ := tick_due regs (raises_iff.mp hraised).2
    have hhandler : (k.reloaded.ctxs k.current).sighandlers .alrm = reg k.current .alrm := by
      rw [← h k.current]
      simp [Kernel.reloaded, Kernel.charged, Kernel.woken, awake]
    have hcur : k.reloaded.current = k.current := rfl
    unfold invokeSyncSignal at hsignal
    dsimp only at hsignal
    rw [hcur, hhandler, if_pos hne] at hsignal
    cases hsignal
    exact ⟨_, htick⟩

end Steps

section Runs

lemma undisturbed_iff {reg : Pid → Signal → Word} (h : Current reg k) (xs : List Request) :
    Undisturbed P reg k xs ↔ Along (serve P) (Silent P) k xs := by
  induction xs generalizing k reg with
  | nil => exact iff_of_true h.delivers trivial
  | cons x xs ih =>
    simp only [Undisturbed, Along, harmless_iff]
    rw [and_iff_right h.delivers]
    refine and_congr_right fun hsilent => ?_
    refine forall_congr' fun k' => forall_congr' fun r => imp_congr_right fun hserve => ?_
    exact ih (serve_current h hsilent hserve)

/-- Calls that change nothing can be left out. -/
lemma sights_filter (xs : List Request) (h : Along (serve P) (Silent P) k xs) :
    sights P k xs = sights P k (xs.filter Request.valid) := by
  induction xs generalizing k with
  | nil => rfl
  | cons x xs ih =>
    cases hvalid : x.valid with
    | true =>
      rw [List.filter_cons_of_pos hvalid, sights, sights]
      cases hserve : serve P k x with
      | none => rfl
      | some y =>
        obtain ⟨k', r⟩ := y
        dsimp only
        rw [ih (h.2 k' r hserve)]
    | false =>
      rw [List.filter_cons_of_neg (by simp [hvalid])]
      cases x with
      | event e => cases hvalid
      | signal signo handler =>
        have hs : Signal.ofInt signo = none := by simpa [Request.valid] using hvalid
        have hserve : serve P k (.signal signo handler) = some (k, none) := by
          rw [serve, silent_kept hs h.1]
          rfl
        rw [sights, hserve]
        dsimp only
        rw [seen, if_neg (by simp), if_neg (by simp), List.nil_append, List.nil_append]
        exact ih (h.2 k none hserve)

/-- In a run calls of `do_signal` leave the schedule and the records alone, and signals go to the
handlers registered last, exactly when each call with a number outside the array finds the bytes
of its handler at its place. -/
theorem signals_undisturbed_iff (P : Placement) (k : Kernel) (xs : List Request) :
    Undisturbed P (fun p => (k.ctxs p).sighandlers) k xs ∧
        sights P k xs = sights P k (xs.filter Request.valid) ↔
      Along (serve P) (Silent P) k xs := by
  have hstart : Current (fun p => (k.ctxs p).sighandlers) k := fun _ => rfl
  rw [undisturbed_iff hstart]
  exact and_iff_left_of_imp (sights_filter xs)

/-- The records one behind the other. -/
def rowOfRecords : Placement where
  start p := 53 * p.val
  apart p q hpq := by
    have hne := Fin.val_ne_of_ne hpq
    rw [recordWords_eq]
    omega

/-- The first process registers a handler for the alarm; its call with number 4 then sets
`ticks_to_alarm`, and the next tick delivers an alarm that nobody asked for. -/
theorem signal_four_raises : ¬∀ (P : Placement) (k : Kernel) (xs : List Request),
    Undisturbed P (fun p => (k.ctxs p).sighandlers) k xs ∧
      sights P k xs = sights P k (xs.filter Request.valid) := by
  intro hclaim
  have hsights :=
    (hclaim rowOfRecords boot [.signal 2 4096, .signal 4 1, .event (.tick noRegs)]).2
  let k₁ := boot.handled .alrm 4096
  let k₂ := k₁.modify 1 fun c => { c with ticksToAlarm := 1 }
  have hregister : serve rowOfRecords boot (.signal 2 4096) = some (k₁, none) := rfl
  have hstore : serve rowOfRecords k₁ (.signal 4 1) = some (k₂, none) := rfl
  have hdue : Due k₂ := by decide
  have hquiet : ¬Due k₁ := by decide
  have hforged : .alarm 1 ∈
      sights rowOfRecords boot [.signal 2 4096, .signal 4 1, .event (.tick noRegs)] := by
    obtain ⟨k', r, hstep⟩ := step_of_due (e := .tick noRegs) (p := 1) rfl hdue
    have htick : serve rowOfRecords k₂ (.event (.tick noRegs)) = some (k', r) := hstep
    have hraised : k'.invoked = (1, .alrm) :: k₂.invoked :=
      kernel_of_step hstep ▸ raises_iff.mpr ⟨rfl, hdue⟩
    have hcur : k₂.current = 1 := rfl
    simp only [sights, hregister, hstore, htick, seen, hraised, hcur]
    simp
  have hfair : .alarm 1 ∉
      sights rowOfRecords boot [.signal 2 4096, .event (.tick noRegs)] := by
    simp only [sights, hregister]
    cases hserve : serve rowOfRecords k₁ (.event (.tick noRegs)) with
    | none => simp [seen, k₁, Kernel.handled, Kernel.modify]
    | some y =>
      obtain ⟨k', r⟩ := y
      have hsame : k'.invoked = k₁.invoked := by
        rw [← kernel_of_step hserve, handle_invoked, if_neg fun h => hquiet h.2]
      simp [seen, hsame, k₁, Kernel.handled, Kernel.modify]
  rw [hsights] at hforged
  exact hfair hforged

end Runs

end OsAssignments.Scheduler
