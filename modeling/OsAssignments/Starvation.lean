import OsAssignments.RunningContext

/-!
# No ready process starves

Every decision of the scheduler takes the current context closer to a ready user process,
in the cyclic order of the numbers. So the process is dispatched after at most 15
decisions, and no other context is dispatched twice before it.
-/
namespace OsAssignments.Scheduler

open Machine

variable {k k' : Kernel} {e : Event} {p i j : Pid} {es : List Event}

section Decisions

/-- The events that decide which context runs next. -/
def Event.IsDecision : Event → Bool
  | tick _ | exit _ _ | sleep _ _ _ => true
  | clone _ | alarm _ | signal _ _ => false

/-- A user process that is ready while another context is current. -/
structure Ready (k : Kernel) (p : Pid) : Prop where
  user : p ≠ 0
  other : p ≠ k.current
  ready : (k.ctxs p).state = .ready

/-- The scan of a system call finds a context that is closer to a ready process. -/
lemma Chosen.closer (h : Chosen k j) (hp : Ready k p) : (p - j).val < (p - k.current).val := by
  rcases h with h | ⟨hnone, -⟩
  · exact h.closer hp.user hp.other hp.ready
  · exact absurd hp.ready (pick_eq_none.mp hnone p hp.user hp.other)

/-- A process that is not chosen stays ready. -/
lemma Dispatch.stays_ready {s : ProcessState} (h : Dispatch k s j k') (hp : Ready k p)
    (hne : p ≠ k'.current) : (k'.ctxs p).state = .ready := by
  rw [h.state p hp.other (h.current ▸ hne)]
  exact hp.ready

/-- A decision takes the current context closer to a ready process, and leaves that process
ready unless it is the one that is dispatched. -/
theorem decision_closer (hp : Ready k p) (huser : e.FromUser k) (he : e.IsDecision) :
    ∃ k' u, handle k e = .iretq k' u ∧ (p - k'.current).val < (p - k.current).val ∧
      (p ≠ k'.current → (k'.ctxs p).state = .ready) := by
  cases e with
  | tick regs =>
    have hwoken : Ready k.woken p := ⟨hp.user, hp.other, woken_ready.mpr (Or.inl hp.ready)⟩
    rcases tick_cases regs k with ⟨-, -, hnone, -⟩ | ⟨k', j, htick, hnext, h, -⟩ |
      ⟨k', u, -, hnone, -⟩
    · exact absurd hwoken.ready (pick_eq_none.mp hnone p hwoken.user hwoken.other)
    · refine ⟨k', _, htick, ?_, h.stays_ready hwoken⟩
      rw [h.current]
      exact hnext.closer hwoken.user hwoken.other hwoken.ready
    · exact absurd hwoken.ready (pick_eq_none.mp hnone p hwoken.user hwoken.other)
  | exit t2 cpu =>
    rcases exit_cases t2 cpu huser with ⟨k', -, hall, hsame⟩ |
      ⟨-, k', j, hexit, hchosen, h⟩
    · have hunused := hall p hp.user
      rw [hsame p hp.other, hp.ready] at hunused
      cases hunused
    · refine ⟨k', _, hexit, ?_, h.stays_ready hp⟩
      rw [h.current]
      exact hchosen.closer hp
  | sleep ticks stack cpu =>
    obtain ⟨k', j, hsleep, hchosen, h⟩ :=
      sleep_cases ticks stack cpu huser
    refine ⟨k', _, hsleep, ?_, h.stays_ready hp⟩
    rw [h.current]
    exact hchosen.closer hp
  | clone call => cases he
  | alarm ticks => cases he
  | signal signo handler => cases he

/-- Other events leave the process ready. -/
lemma ready_kept {r : Option (Abi → UserRegs)} (hp : Ready k p) (he : e.IsDecision = false)
    (hstep : step k e = some (k', r)) : k'.current = k.current ∧ Ready k' p := by
  unfold step at hstep
  cases e with
  | tick regs => cases he
  | exit t2 cpu => cases he
  | sleep ticks stack cpu => cases he
  | clone call =>
    obtain ⟨k₁, hclone, hcur, hready, hother⟩ := clone_cases call k
    rw [handle, hclone, Outcome.next] at hstep
    cases hstep
    refine ⟨hcur, hp.user, hcur ▸ hp.other, ?_⟩
    rcases eq_or_ne p call.pid with rfl | hne
    · exact hready
    · rw [hother p hne]
      exact hp.ready
  | alarm ticks =>
    obtain ⟨k₁, halarm, hsame⟩ := doAlarm_same ticks k
    rw [handle, halarm, Outcome.next] at hstep
    cases hstep
    exact ⟨hsame.current, hp.user, hsame.current ▸ hp.other, (hsame.state p).trans hp.ready⟩
  | signal signo handler =>
    obtain ⟨k₁, hsignal, hsame⟩ := signal_same signo handler k
    rw [handle, hsignal, Outcome.next] at hstep
    cases hstep
    exact ⟨hsame.current, hp.user, hsame.current ▸ hp.other, (hsame.state p).trans hp.ready⟩

lemma step_isSome (he : e.IsDecision = false) : ∃ k' r, step k e = some (k', r) := by
  cases e with
  | tick regs => cases he
  | exit t2 cpu => cases he
  | sleep ticks stack cpu => cases he
  | clone call => exact ⟨_, _, rfl⟩
  | alarm ticks => exact ⟨_, _, rfl⟩
  | signal signo handler => exact ⟨_, _, rfl⟩

end Decisions

section Runs

/-- The contexts that the decisions of a run make current, in order. -/
def dispatched : Kernel → List Event → List Pid
  | _, [] => []
  | k, e :: es =>
    match step k e with
    | none => []
    | some (k', _) => if e.IsDecision then k'.current :: dispatched k' es else dispatched k' es

/-- What is dispatched before a ready process comes ever closer to it, and so does not come
twice; and it cannot come closer more often than it is away. -/
lemma dispatched_closer (hp : Ready k p) (huser : Along step (fun k e => e.FromUser k) k es) :
    ((p - k.current).val ≤ es.countP Event.IsDecision →
      p ∈ (dispatched k es).take (p - k.current).val) ∧
    (∀ c ∈ (dispatched k es).takeWhile (· ≠ p), (p - c).val < (p - k.current).val) ∧
    ((dispatched k es).takeWhile (· ≠ p)).Nodup := by
  induction es generalizing k with
  | nil =>
    refine ⟨fun h => ?_, fun c hc => ?_, List.nodup_nil⟩
    · have := sub_current_pos hp.other
      rw [List.countP_nil] at h
      omega
    · cases hc
  | cons e es ih =>
    unfold dispatched
    cases he : e.IsDecision with
    | false =>
      obtain ⟨k', r, hstep⟩ := step_isSome (k := k) he
      obtain ⟨hcur, hp'⟩ := ready_kept hp he hstep
      rw [hstep, List.countP_cons_of_neg (by simp [he]), ← hcur]
      exact ih hp' (huser.2 k' r hstep)
    | true =>
      obtain ⟨k', u, hhandle, hcloser, hready⟩ := decision_closer hp huser.1 he
      have hstep : step k e = some (k', some u) := by rw [step, hhandle, Outcome.next]
      rw [hstep, List.countP_cons_of_pos he]
      obtain ⟨d, hd⟩ : ∃ d, (p - k.current).val = d + 1 := ⟨(p - k.current).val - 1, by omega⟩
      simp only [if_true]
      rcases eq_or_ne p k'.current with heq | hne
      · rw [← heq, List.takeWhile_cons_of_neg (by simp), hd, List.take_succ_cons]
        exact ⟨fun _ => List.mem_cons_self, fun c hc => absurd hc List.not_mem_nil, List.nodup_nil⟩
      · obtain ⟨hcount, hsub, hnodup⟩ :=
          ih ⟨hp.user, hne, hready hne⟩ (huser.2 k' _ hstep)
        rw [List.takeWhile_cons_of_pos (by simpa using hne.symm), hd, List.take_succ_cons]
        refine ⟨fun h => ?_, fun c hc => ?_, List.nodup_cons.mpr ⟨fun hmem => ?_, hnodup⟩⟩
        · have hmem := hcount (by omega)
          have htake : (p - k'.current).val ≤ d := by omega
          rw [← Nat.min_eq_left htake, ← List.take_take] at hmem
          exact List.mem_cons_of_mem _ (List.mem_of_mem_take hmem)
        · rcases List.mem_cons.mp hc with rfl | hc
          · omega
          · have := hsub c hc
            omega
        · exact absurd (hsub _ hmem) (lt_irrefl _)

/-- A ready user process is dispatched at the 15th decision at the latest: every decision takes
the current context closer to it, so that no other context is dispatched twice before. -/
theorem ready_dispatched (k : Kernel) (p : Pid) (hp : Ready k p) :
    (∀ e : Event, e.FromUser k → e.IsDecision → ∃ k' u, handle k e = .iretq k' u ∧
      (p - k'.current).val < (p - k.current).val ∧
        (p ≠ k'.current → (k'.ctxs p).state = .ready)) ∧
    ∀ es, Along step (fun k e => e.FromUser k) k es →
      (15 ≤ es.countP Event.IsDecision → p ∈ (dispatched k es).take 15) ∧
        ((dispatched k es).takeWhile (· ≠ p)).Nodup := by
  refine ⟨fun e huser he => decision_closer hp huser he, fun es huser => ?_⟩
  obtain ⟨hcount, -, hnodup⟩ := dispatched_closer hp huser
  refine ⟨fun h => ?_, hnodup⟩
  have hle : (p - k.current).val ≤ 15 := by omega
  have hmem := hcount (hle.trans h)
  rw [← Nat.min_eq_left hle, ← List.take_take] at hmem
  exact List.mem_of_mem_take hmem

/-- A second process is ready beside the first one. -/
def bootTwo : Kernel := boot.modify 2 fun c => { c with state := .ready }

theorem ready_dispatched_two :
    2 ∈ (dispatched bootTwo (List.replicate 15 (.tick noRegs))).take 15 := by
  refine ((ready_dispatched bootTwo 2 ⟨by decide, by decide, rfl⟩).2 _
    (along_of_forall fun e he s => ?_)).1 (by decide)
  rw [List.eq_of_mem_replicate he]
  trivial

end Runs

end OsAssignments.Scheduler
