import OsAssignments.Scheduler
import Mathlib.Tactic

/-!
# What the handlers do to the schedule

The tick first wakes contexts, then each of the three ways to switch picks the next ready
user context in cyclic order. What the handlers do to the states, counters and saved
registers of the contexts is stated once for each of them.
-/
namespace OsAssignments.Scheduler

variable {k k' : Kernel} {pid p i j : Pid} {f : ExecContext → ExecContext} {c : ExecContext}
variable {u : Abi → UserRegs}

section Contexts

@[simp] lemma Kernel.modify_current : (k.modify pid f).current = k.current := rfl

@[simp] lemma Kernel.modify_ctxs :
    (k.modify pid f).ctxs i = if i = pid then f (k.ctxs pid) else k.ctxs i :=
  Function.update_apply ..

lemma Kernel.modify_modify {g : ExecContext → ExecContext} :
    (k.modify pid f).modify pid g = k.modify pid fun c => g (f c) := by
  simp only [Kernel.modify, Function.update_self, Function.update_idem]

lemma Kernel.modify_congr {g : ExecContext → ExecContext} (h : f (k.ctxs pid) = g (k.ctxs pid)) :
    k.modify pid f = k.modify pid g := by
  rw [Kernel.modify, h, Kernel.modify]

end Contexts

section Waking

/-- A context after one round of the loop of the tick. -/
def awake (c : ExecContext) : ExecContext :=
  { c with
    ticksToSleep := c.ticksToSleep - 1
    state := if c.ticksToSleep - 1 = 1 then .ready else c.state }

/-- All contexts after the loop. -/
def Kernel.woken (k : Kernel) : Kernel := { k with ctxs := fun i => awake (k.ctxs i) }

lemma sub_one_eq_one (w : BitVec 32) : w - 1 = 1 ↔ w = 2 := by
  constructor
  · intro h
    bv_omega
  · rintro rfl
    rfl

lemma awake_ready : (awake c).state = .ready ↔ c.state = .ready ∨ c.ticksToSleep = 2 := by
  rw [← sub_one_eq_one]
  unfold awake
  dsimp only
  split_ifs with h
  · exact iff_of_true rfl (Or.inr h)
  · exact (or_iff_left h).symm

lemma awake_state {s : ProcessState} (hs : s ≠ .ready) :
    (awake c).state = s ↔ c.state = s ∧ c.ticksToSleep ≠ 2 := by
  rw [Ne, ← sub_one_eq_one]
  unfold awake
  dsimp only
  split_ifs with h
  · exact iff_of_false hs.symm fun hc => hc.2 h
  · exact (and_iff_left h).symm

lemma wake_eq {n : ℕ} : wake (k, n) i =
    (k.modify i awake, if (awake (k.ctxs i)).state = .waiting then n + 1 else n) := by
  have hctx : ∀ b : ExecContext → ExecContext, ((k.modify i b).ctxs i) = b (k.ctxs i) :=
    fun b => Function.update_self ..
  unfold wake
  dsimp only
  rw [hctx]
  by_cases h : (k.ctxs i).ticksToSleep - 1 = 1
  · have hawake : k.modify i awake = (k.modify i fun c =>
        { c with ticksToSleep := c.ticksToSleep - 1 }).modify i fun c =>
        { c with state := .ready } := by
      rw [Kernel.modify_modify]
      apply Kernel.modify_congr
      rw [awake, if_pos h]
    rw [if_pos h, ← hawake, hctx]
  · have hawake : k.modify i awake = k.modify i fun c =>
        { c with ticksToSleep := c.ticksToSleep - 1 } := by
      apply Kernel.modify_congr
      rw [awake, if_neg h]
    rw [if_neg h, ← hawake, hctx]

lemma foldl_wake {l : List Pid} (hl : l.Nodup) {n : ℕ} : l.foldl wake (k, n) =
    ({ k with ctxs := fun i => if i ∈ l then awake (k.ctxs i) else k.ctxs i },
      n + l.countP fun i => (awake (k.ctxs i)).state = .waiting) := by
  induction l generalizing k n with
  | nil => simp
  | cons i l ih =>
    obtain ⟨hi, hl⟩ := List.nodup_cons.mp hl
    rw [List.foldl_cons, wake_eq, ih hl]
    apply Prod.ext
    · simp only [Kernel.modify, Kernel.mk.injEq, and_true]
      funext j
      by_cases hj : j = i
      · subst hj
        simp [hi]
      · simp [hj]
    · have hcount :
        l.countP (fun j => ((awake ((k.modify i awake).ctxs j)).state = .waiting : Bool)) =
          l.countP fun j => (awake (k.ctxs j)).state = .waiting := by
        refine List.countP_congr fun j hj => ?_
        have hne : j ≠ i := fun heq => hi (heq ▸ hj)
        simp [hne]
      dsimp only
      rw [hcount, List.countP_cons]
      simp only [decide_eq_true_eq]
      split_ifs <;> omega

/-- The loop in one update. -/
lemma wakeAll_fst : (wakeAll k).1 = k.woken := by
  rw [wakeAll, foldl_wake (List.nodup_finRange 16)]
  simp only [List.mem_finRange, if_true]
  rfl

lemma wakeAll_snd : (wakeAll k).2 = 0 ↔ ∀ i, (k.woken.ctxs i).state ≠ .waiting := by
  rw [wakeAll, foldl_wake (List.nodup_finRange 16)]
  simp [Kernel.woken]

end Waking

section Picking

/-- The number of rounds of the scan before it looks at a context. -/
lemma sub_current {n : ℕ} (hn : n < 16) (a : Pid) : (a + Fin.ofNat 16 n - a).val = n := by
  rw [Fin.val_sub, Fin.val_add, Fin.val_ofNat]
  omega

lemma add_sub_current (a p : Pid) : a + Fin.ofNat 16 (p - a).val = p := by
  rw [Fin.ofNat_val_eq_self]
  exact add_sub_cancel a p

lemma sub_current_pos (h : p ≠ i) : 1 ≤ (p - i).val := by
  have hne := Fin.val_ne_of_ne (sub_ne_zero.mpr h)
  change (p - i).val ≠ 0 at hne
  omega

/-- The scan finds nothing when no other user context is ready. -/
theorem pick_eq_none : pick k = none ↔
    ∀ p, p ≠ 0 → p ≠ k.current → (k.ctxs p).state ≠ .ready := by
  unfold pick
  simp only [List.find?_eq_none, List.mem_map, List.mem_range'_1, decide_eq_true_eq]
  constructor
  · intro h p hp hcur hready
    exact h p ⟨_, ⟨sub_current_pos hcur, by omega⟩, add_sub_current k.current p⟩ ⟨hp, hready⟩
  · rintro h _ ⟨n, hn, rfl⟩ ⟨hp, hready⟩
    refine h _ hp (fun heq => ?_) hready
    have hval := sub_current (n := n) (by omega) k.current
    rw [heq, sub_self] at hval
    change 0 = n at hval
    omega

/-- The scan finds the ready user context that comes first after the current one. -/
structure Next (k : Kernel) (j : Pid) : Prop where
  user : j ≠ 0
  other : j ≠ k.current
  ready : (k.ctxs j).state = .ready
  first : ∀ p, p ≠ 0 → p ≠ k.current → (k.ctxs p).state = .ready →
    (j - k.current).val ≤ (p - k.current).val

theorem pick_eq_some (h : pick k = some j) : Next k j := by
  rw [pick, List.find?_map, Option.map_eq_some_iff] at h
  obtain ⟨n, hn, rfl⟩ := h
  rw [List.find?_range'_eq_some] at hn
  simp only [Function.comp_apply, decide_eq_true_eq, List.mem_range'_1, Bool.not_eq_true',
    decide_eq_false_iff_not, not_and] at hn
  obtain ⟨⟨huser, hready⟩, hrange, hfirst⟩ := hn
  refine ⟨huser, fun heq => ?_, hready, fun p hp hcur hp' => ?_⟩
  · have hval := sub_current (n := n) (by omega) k.current
    rw [heq, sub_self] at hval
    change 0 = n at hval
    omega
  · rw [sub_current (by omega)]
    by_contra hlt
    refine hfirst (p - k.current).val (sub_current_pos hcur) (by omega) ?_ ?_
    · rwa [add_sub_current]
    · rwa [add_sub_current]

lemma pick_isSome (hp : p ≠ 0) (hcur : p ≠ k.current) (hready : (k.ctxs p).state = .ready) :
    ∃ j, pick k = some j := by
  cases h : pick k with
  | none => exact absurd hready (pick_eq_none.mp h p hp hcur)
  | some j => exact ⟨j, rfl⟩

/-- The next context is between the current one and every other ready one. -/
lemma Next.closer (h : Next k j) (hp : p ≠ 0) (hcur : p ≠ k.current)
    (hready : (k.ctxs p).state = .ready) : (p - j).val < (p - k.current).val := by
  have hfirst := h.first p hp hcur hready
  have hpos := sub_current_pos h.other
  rw [Fin.val_sub] at *
  omega

end Picking

section Switches

/-- What a switch leaves: the context that ran is in state `s`, the other one runs. -/
structure Dispatch (k : Kernel) (s : ProcessState) (init : Pid) (k' : Kernel) : Prop where
  ne : init ≠ k.current
  current : k'.current = init
  left : (k'.ctxs k.current).state = s
  running : (k'.ctxs init).state = .running
  state : ∀ i, i ≠ k.current → i ≠ init → (k'.ctxs i).state = (k.ctxs i).state
  ticks : ∀ i, i ≠ k.current → i ≠ init → (k'.ctxs i).ticksToSleep = (k.ctxs i).ticksToSleep
  regs : ∀ i, i ≠ k.current → (k'.ctxs i).regs = (k.ctxs i).regs

/-- The schedule is as it was. -/
structure Same (k k' : Kernel) : Prop where
  current : k'.current = k.current
  state : ∀ i, (k'.ctxs i).state = (k.ctxs i).state
  ticks : ∀ i, (k'.ctxs i).ticksToSleep = (k.ctxs i).ticksToSleep
  regs : ∀ i, (k'.ctxs i).regs = (k.ctxs i).regs

/-- The context a system call switches to: the next one, or the swapper. -/
def Chosen (k : Kernel) (init : Pid) : Prop := Next k init ∨ pick k = none ∧ init = 0

lemma chosen_pick : Chosen k ((pick k).getD 0) := by
  cases h : pick k with
  | none => exact Or.inr ⟨h, rfl⟩
  | some j => exact Or.inl (pick_eq_some h)

lemma Chosen.ne (h : Chosen k i) (hcur : k.current ≠ 0) : i ≠ k.current := by
  rcases h with h | ⟨-, rfl⟩
  · exact h.other
  · exact hcur.symm

/-- The scan does not look at the context that runs. -/
lemma pick_modify_current : pick (k.modify k.current f) = pick k := by
  have hstate : ∀ j, j ≠ k.current → ((k.modify k.current f).ctxs j).state = (k.ctxs j).state := by
    intro j hj
    rw [Kernel.modify_ctxs, if_neg hj]
  unfold pick
  rw [Kernel.modify_current]
  refine List.find?_congr fun j hj => ?_
  obtain ⟨n, hn, rfl⟩ := List.mem_map.mp hj
  rw [List.mem_range'_1] at hn
  rw [hstate]
  intro heq
  have hval := sub_current (n := n) (by omega) k.current
  rw [heq, sub_self] at hval
  change 0 = n at hval
  omega

lemma unusedCount_eq : unusedCount k = 15 ↔ ∀ i, i ≠ 0 → (k.ctxs i).state = .unused := by
  have hmem : ∀ i : Pid, i ∈ (List.finRange 16).tail ↔ i ≠ 0 := by decide
  refine Iff.trans (List.length_filter_eq_length_iff (l := (List.finRange 16).tail)) ?_
  simp only [hmem, decide_eq_true_eq]

/-- A tick saves all registers of the context that it switches away from. -/
lemma save_eq {r r' : UserRegs} : saveFrame (frameOf r) (savePushes (pushes r.toRegs) r') = r := rfl

end Switches

section Handlers

variable {regs : UserRegs} {t2 : Frame} {cpu : Regs}

lemma Same.trans {k₁ k₂ k₃ : Kernel} (h : Same k₁ k₂) (h' : Same k₂ k₃) : Same k₁ k₃ :=
  ⟨h'.current.trans h.current, fun i => (h'.state i).trans (h.state i),
    fun i => (h'.ticks i).trans (h.ticks i), fun i => (h'.regs i).trans (h.regs i)⟩

/-- Other members of a context do not belong to the schedule. -/
lemma same_modify (hstate : ∀ c, (f c).state = c.state)
    (hticks : ∀ c, (f c).ticksToSleep = c.ticksToSleep) (hregs : ∀ c, (f c).regs = c.regs) :
    Same k (k.modify pid f) := by
  have hctx : ∀ i, i ≠ pid → (k.modify pid f).ctxs i = k.ctxs i := fun i hi => by
    rw [Kernel.modify_ctxs, if_neg hi]
  have hself : (k.modify pid f).ctxs pid = f (k.ctxs pid) := by
    rw [Kernel.modify_ctxs, if_pos rfl]
  refine ⟨rfl, fun i => ?_, fun i => ?_, fun i => ?_⟩ <;> rcases eq_or_ne i pid with rfl | hi
  · rw [hself, hstate]
  · rw [hctx i hi]
  · rw [hself, hticks]
  · rw [hctx i hi]
  · rw [hself, hregs]
  · rw [hctx i hi]

lemma alarm_same (ustack urip : Paging.Word) (k : Kernel) :
    ∃ x y k', invokeSyncSignal .alrm ustack urip k = some (x, y, k') ∧ Same k k' := by
  unfold invokeSyncSignal
  dsimp only
  split_ifs with hhandler h
  · exact ⟨_, _, _, rfl, rfl, fun _ => rfl, fun _ => rfl, fun _ => rfl⟩
  · exact absurd rfl h
  · exact ⟨_, _, _, rfl, rfl, fun _ => rfl, fun _ => rfl, fun _ => rfl⟩

lemma alarmAccount_same (t1 : List Paging.Word) (t2 : Frame) (cpu : Regs) (k : Kernel) :
    ∃ k' u, alarmAccount t1 t2 cpu k = .iretq k' u ∧ Same k k' := by
  unfold alarmAccount
  extract_lets k₁ k₂
  have h₁ : Same k k₁ := same_modify (fun _ => rfl) (fun _ => rfl) fun _ => rfl
  split_ifs with hdue
  · have h₂ : Same k₁ k₂ := same_modify (fun _ => rfl) (fun _ => rfl) fun _ => rfl
    obtain ⟨x, y, k₃, hsignal, h₃⟩ := alarm_same (t2 4) (t2 1) k₂
    rw [hsignal]
    exact ⟨k₃, _, rfl, (h₁.trans h₂).trans h₃⟩
  · exact ⟨k₁, _, rfl, h₁⟩

/-- A switch, from what it does to the three kinds of contexts. -/
lemma dispatch_of {s : ProcessState} {w v : BitVec 32} {r : UserRegs} {c : ExecContext}
    (hne : j ≠ k.current) (hcur : k'.current = j)
    (hother : ∀ i, i ≠ k.current → i ≠ j → k'.ctxs i = k.ctxs i)
    (hinit : k'.ctxs j = { k.ctxs j with ticksToSleep := w, state := .running })
    (hself : k'.ctxs k.current = { c with ticksToSleep := v, state := s, regs := r }) :
    Dispatch k s j k' := by
  refine ⟨hne, hcur, ?_, ?_, fun i hi hj => ?_, fun i hi hj => ?_, fun i hi => ?_⟩
  · rw [hself]
  · rw [hinit]
  · rw [hother i hi hj]
  · rw [hother i hi hj]
  · rcases eq_or_ne i j with rfl | hj
    · rw [hinit]
    · rw [hother i hi hj]

/-- A tick after which some other user context is ready. -/
lemma tick_switch (regs : UserRegs) (hpick : pick k.woken = some j) :
    ∃ k', handleTimerTick regs k = .iretq k' (switchTo j (k.ctxs j).regs regs.toRegs) ∧
      Dispatch k.woken .ready j k' ∧ (k'.ctxs k.current).regs = regs := by
  have hne : j ≠ k.current := (pick_eq_some hpick).other
  have hcur : k.woken.current = k.current := rfl
  have hpair : wakeAll k = (k.woken, (wakeAll k).2) := by rw [← wakeAll_fst]
  unfold handleTimerTick
  rw [hpair]
  dsimp -zeta only
  extract_lets t1 t2 changed next k₁ k₂ k₃ k₄
  have hchanged : changed = some j := hpick
  have hnext : next = j := by simp only [next, hchanged, Option.getD_some]
  clear_value next changed
  subst hnext hchanged
  have hchange : next ≠ k.woken.current := hne
  rw [if_neg fun h => Option.some_ne_none _ h.1, if_pos hchange]
  have hother : ∀ i, i ≠ k.current → i ≠ next → k₄.ctxs i = k.woken.ctxs i := by
    intro i hi hj
    simp only [k₄, k₃, k₂, k₁, Kernel.modify_ctxs, Kernel.modify_current, hcur, if_neg hi,
      if_neg hj]
  have hinit : k₄.ctxs next = { k.woken.ctxs next with ticksToSleep := 0, state := .running } := by
    simp only [k₄, k₃, k₂, k₁, Kernel.modify_ctxs, Kernel.modify_current, hcur, if_neg hne, if_true]
  have hself : k₄.ctxs k.current =
    { k.woken.ctxs k.current with state := .ready, regs := regs } := by
    simp only [k₄, k₃, k₂, k₁, t1, t2, Kernel.modify_ctxs, Kernel.modify_current, hcur,
      if_neg hne.symm, if_true, save_eq]
  refine ⟨{ k₄ with current := next }, ?_, dispatch_of hne rfl hother hinit hself, ?_⟩
  · rw [hinit]
    rfl
  · exact congrArg ExecContext.regs hself

/-- What a tick does. -/
theorem tick_cases (regs : UserRegs) (k : Kernel) :
    (handleTimerTick regs k = .cleanup k.woken ∧ k.current = 0 ∧ pick k.woken = none ∧
      ∀ i, (k.woken.ctxs i).state ≠ .waiting) ∨
    (∃ k' j, handleTimerTick regs k = .iretq k' (switchTo j (k.ctxs j).regs regs.toRegs) ∧
      Next k.woken j ∧ Dispatch k.woken .ready j k' ∧ (k'.ctxs k.current).regs = regs) ∨
    ∃ k' u, handleTimerTick regs k = .iretq k' u ∧ pick k.woken = none ∧
      (k.current = 0 → ∃ i, (k.woken.ctxs i).state = .waiting) ∧ Same k.woken k' := by
  cases hpick : pick k.woken with
  | some j =>
    obtain ⟨k', htick, hdispatch⟩ := tick_switch regs hpick
    exact Or.inr (Or.inl ⟨k', j, htick, pick_eq_some hpick, hdispatch⟩)
  | none =>
    have hpair : wakeAll k = (k.woken, (wakeAll k).2) := by rw [← wakeAll_fst]
    unfold handleTimerTick
    rw [hpair]
    dsimp only
    rw [hpick]
    by_cases hdone : (wakeAll k).2 = 0 ∧ k.woken.current = 0
    · rw [if_pos ⟨rfl, hdone⟩, doExit, if_pos hdone.2]
      exact Or.inl ⟨rfl, hdone.2, rfl, wakeAll_snd.mp hdone.1⟩
    · rw [if_neg fun h => hdone h.2, Option.getD_none, if_neg (not_not_intro rfl)]
      obtain ⟨k', u, hstay, hsame⟩ := alarmAccount_same (pushes regs.toRegs) (frameOf regs)
        regs.toRegs k.woken
      refine Or.inr (Or.inr ⟨k', u, hstay, rfl, fun hzero => ?_, hsame⟩)
      by_contra hnone
      push Not at hnone
      exact hdone ⟨wakeAll_snd.mpr hnone, hzero⟩

/-- What an exit of a user process does. -/
theorem exit_cases (t2 : Frame) (cpu : Regs) (hcur : k.current ≠ 0) :
    (∃ k', doExit t2 cpu k = .cleanup k' ∧ (∀ i, i ≠ 0 → (k'.ctxs i).state = .unused) ∧
      ∀ i, i ≠ k.current → k'.ctxs i = k.ctxs i) ∨
    (∃ i, i ≠ 0 ∧ i ≠ k.current ∧ (k.ctxs i).state ≠ .unused) ∧
      ∃ k' j, doExit t2 cpu k = .iretq k' (exitTo j (k.ctxs j).regs cpu) ∧ Chosen k j ∧
        Dispatch k .unused j k' := by
  unfold doExit
  rw [if_neg hcur]
  extract_lets k₁ init k₂ k₃
  have hctx : ∀ i, i ≠ k.current → k₁.ctxs i = k.ctxs i := fun i hi => by
    rw [Kernel.modify_ctxs, if_neg hi]
  split_ifs with hall
  · exact Or.inl ⟨k₁, rfl, unusedCount_eq.mp hall, hctx⟩
  · have hinit : init = (pick k).getD 0 := congrArg (fun o => o.getD 0) pick_modify_current
    have hchosen : Chosen k init := hinit ▸ chosen_pick
    have hne := hchosen.ne hcur
    clear_value init
    refine Or.inr ⟨?_, ?_⟩
    · rw [unusedCount_eq] at hall
      push Not at hall
      obtain ⟨i, hi, hused⟩ := hall
      have hicur : i ≠ k.current := by
        rintro rfl
        exact hused (by rw [Kernel.modify_ctxs, if_pos rfl])
      exact ⟨i, hi, hicur, by rwa [hctx i hicur] at hused⟩
    · have hother : ∀ i, i ≠ k.current → i ≠ init → k₃.ctxs i = k.ctxs i := by
        intro i hi hj
        simp only [k₃, k₂, k₁, Kernel.modify_ctxs, Kernel.modify_current, if_neg hi, if_neg hj]
      have hrun : k₃.ctxs init = { k.ctxs init with state := .running } := by
        simp only [k₃, k₂, k₁, Kernel.modify_ctxs, Kernel.modify_current, if_neg hne, if_true]
      have hself : k₃.ctxs k.current = { k.ctxs k.current with
          state := .unused, regs := saveFrame t2 (k.ctxs k.current).regs } := by
        simp only [k₃, k₂, k₁, Kernel.modify_ctxs, Kernel.modify_current, if_neg hne.symm, if_true]
      refine ⟨{ k₃ with current := init }, init, ?_, hchosen,
        dispatch_of hne rfl hother hrun hself⟩
      rw [hrun]

/-- What a sleep of a user process does. -/
theorem sleep_cases (ticks : BitVec 32) (stack : ℕ → Paging.Word) (cpu : Regs)
    (hcur : k.current ≠ 0) :
    ∃ k' j, doSleep ticks stack cpu k =
        .iretq k' (sleepTo j (frameOf (k.ctxs j).regs) (k.ctxs j).regs cpu) ∧ Chosen k j ∧
      Dispatch k .waiting j k' := by
  have hchosen := chosen_pick (k := k)
  have hne := hchosen.ne hcur
  unfold doSleep
  extract_lets swp k₁ k₂ k₃ rip k₄
  change swp ≠ k.current at hne
  change Chosen k swp at hchosen
  clear_value swp
  have hother : ∀ i, i ≠ k.current → i ≠ swp → k₄.ctxs i = k.ctxs i := by
    intro i hi hj
    simp only [k₄, k₃, k₂, k₁, Kernel.modify_ctxs, Kernel.modify_current, if_neg hi, if_neg hj]
  have hrun : k₄.ctxs swp = { k.ctxs swp with state := .running } := by
    simp only [k₄, k₃, k₂, k₁, Kernel.modify_ctxs, Kernel.modify_current, if_neg hne, if_true]
  have hself : k₄.ctxs k.current = { k.ctxs k.current with
      ticksToSleep := ticks + 1, state := .waiting
      regs := saveSyscall stack (k.ctxs k.current).regs } := by
    simp only [k₄, k₃, k₂, k₁, Kernel.modify_ctxs, Kernel.modify_current, if_neg hne.symm, if_true]
  have hrip : rip = frameOf (k.ctxs swp).regs := by
    simp only [rip, k₃, k₂, k₁, Kernel.modify_ctxs, Kernel.modify_current, if_neg hne, if_true]
  refine ⟨{ k₄ with current := swp }, swp, ?_, hchosen, dispatch_of hne rfl hother hrun hself⟩
  rw [hrun, hrip]

/-- What a clone does to the schedule. -/
theorem clone_cases (call : CloneCall) (k : Kernel) : ∃ k', doClone call k = .ret k' ∧
    k'.current = k.current ∧ (k'.ctxs call.pid).state = .ready ∧
      ∀ i, i ≠ call.pid → k'.ctxs i = k.ctxs i := by
  unfold doClone
  extract_lets current
  refine ⟨_, rfl, rfl, ?_, fun i hi => ?_⟩
  · rw [Kernel.modify_ctxs, if_pos rfl]
  · rw [Kernel.modify_ctxs, if_neg hi]

lemma signal_same (signo : Signal) (handler : Paging.Word) (k : Kernel) :
    ∃ k', doSignal signo handler k = .ret k' ∧ Same k k' :=
  ⟨_, rfl, same_modify (fun _ => rfl) (fun _ => rfl) fun _ => rfl⟩

lemma doAlarm_same (ticks : BitVec 32) (k : Kernel) : ∃ k', doAlarm ticks k = .ret k' ∧ Same k k' :=
  ⟨_, rfl, same_modify (fun _ => rfl) (fun _ => rfl) fun _ => rfl⟩

end Handlers

section Untouched

/-- A part of every context is as it was. -/
def Kept {β : Type} (g : ExecContext → β) (k k' : Kernel) : Prop :=
  ∀ i, g (k'.ctxs i) = g (k.ctxs i)

/-- A part of a context that the switches leave alone. -/
structure OffSchedule {β : Type} (g : ExecContext → β) : Prop where
  state : ∀ c s, g { c with state := s } = g c
  ticks : ∀ c w, g { c with ticksToSleep := w } = g c
  regs : ∀ c r, g { c with regs := r } = g c

variable {β : Type} {g : ExecContext → β} {u : Abi → UserRegs}

lemma Kept.refl (g : ExecContext → β) (k : Kernel) : Kept g k k := fun _ => rfl

lemma Kept.modify (h : Kept g k k') (hf : ∀ c, g (f c) = g c) : Kept g k (k'.modify pid f) := by
  intro i
  rw [Kernel.modify_ctxs]
  split_ifs with hi
  · rw [hf, ← hi, h i]
  · exact h i

lemma OffSchedule.woken (hg : OffSchedule g) (k : Kernel) : Kept g k k.woken := by
  intro i
  have hstate := hg.state { k.ctxs i with ticksToSleep := (k.ctxs i).ticksToSleep - 1 }
    (awake (k.ctxs i)).state
  exact hstate.trans (hg.ticks _ _)

/-- A tick that switches. -/
lemma tick_away (regs : UserRegs) (hpick : pick k.woken = some j) :
    ∃ k' u, handleTimerTick regs k = .iretq k' u ∧ k'.current = j ∧ k'.invoked = k.invoked ∧
      ∀ {β : Type} (g : ExecContext → β), OffSchedule g → Kept g k k' := by
  have hne : j ≠ k.woken.current := (pick_eq_some hpick).other
  have hpair : wakeAll k = (k.woken, (wakeAll k).2) := by rw [← wakeAll_fst]
  unfold handleTimerTick
  rw [hpair]
  dsimp -zeta only
  extract_lets t1 t2 changed next k₁ k₂ k₃ k₄
  have hchanged : changed = some j := hpick
  have hnext : next = j := by simp only [next, hchanged, Option.getD_some]
  rw [if_neg fun h => Option.some_ne_none j (hchanged.symm.trans h.1), if_pos (hnext ▸ hne)]
  refine ⟨_, _, rfl, hnext, rfl, fun g hg => ?_⟩
  have h₁ : Kept g k k₁ := (hg.woken k).modify fun c => hg.ticks c _
  have h₂ : Kept g k k₂ := h₁.modify fun c => hg.state c _
  have h₃ : Kept g k k₃ := h₂.modify fun c => hg.state c _
  exact h₃.modify fun c => hg.regs c _

lemma exit_kept {t2 : Frame} {cpu : Regs} (hg : OffSchedule g)
    (h : doExit t2 cpu k = .iretq k' u) : Kept g k k' := by
  unfold doExit at h
  extract_lets k₁ init k₂ k₃ at h
  split_ifs at h
  have h₁ : Kept g k k₁ := (Kept.refl g k).modify fun c => hg.state c _
  have h₂ : Kept g k k₂ := h₁.modify fun c => hg.state c _
  have h₃ : Kept g k k₃ := h₂.modify fun c => hg.regs c _
  cases h
  exact h₃

lemma sleep_kept {ticks : BitVec 32} {stack : ℕ → Paging.Word} {cpu : Regs}
    (hg : OffSchedule g) (h : doSleep ticks stack cpu k = .iretq k' u) : Kept g k k' := by
  unfold doSleep at h
  extract_lets swp k₁ k₂ k₃ rip k₄ at h
  have h₁ : Kept g k k₁ := (Kept.refl g k).modify fun c => hg.ticks c _
  have h₂ : Kept g k k₂ := h₁.modify fun c => hg.state c _
  have h₃ : Kept g k k₃ := h₂.modify fun c => hg.state c _
  have h₄ : Kept g k k₄ := h₃.modify fun c => hg.regs c _
  cases h
  exact h₄

end Untouched

section Effects

variable {e : Event} {r : Option (Abi → UserRegs)}

/-- What an event does to the schedule, unless it is the last one. -/
inductive Effect (k : Kernel) : Event → Kernel → Prop
  | ticked {regs : UserRegs} {j : Pid} {k' : Kernel} :
      Next k.woken j → Dispatch k.woken .ready j k' → Effect k (.tick regs) k'
  | stayed {regs : UserRegs} {k' : Kernel} : Same k.woken k' → Effect k (.tick regs) k'
  | switched {e : Event} {s : ProcessState} {j : Pid} {k' : Kernel} :
      k.current ≠ 0 → s ≠ .running → Chosen k j → Dispatch k s j k' → Effect k e k'
  | cloned {call : CloneCall} {k' : Kernel} : k'.current = k.current →
      (k'.ctxs call.pid).state = .ready → (∀ i, i ≠ call.pid → k'.ctxs i = k.ctxs i) →
      Effect k (.clone call) k'
  | kept {e : Event} {k' : Kernel} : Same k k' → Effect k e k'

theorem effect_of_step (huser : e.FromUser k) (hstep : step k e = some (k', r)) :
    Effect k e k' := by
  unfold step at hstep
  cases e with
  | tick regs =>
    rcases tick_cases regs k with ⟨htick, -⟩ | ⟨k₁, j, htick, hnext, h, -⟩ |
      ⟨k₁, u, htick, -, -, hsame⟩ <;> rw [handle, htick, Outcome.next] at hstep <;> cases hstep
    · exact .ticked hnext h
    · exact .stayed hsame
  | exit t2 cpu =>
    rcases exit_cases t2 cpu huser with ⟨k₁, hexit, -⟩ | ⟨-, k₁, j, hexit, hchosen, h⟩ <;>
      rw [handle, hexit, Outcome.next] at hstep <;> cases hstep
    exact .switched huser (by decide) hchosen h
  | sleep ticks stack cpu =>
    obtain ⟨k₁, j, hsleep, hchosen, h⟩ := sleep_cases ticks stack cpu huser
    rw [handle, hsleep, Outcome.next] at hstep
    cases hstep
    exact .switched huser (by decide) hchosen h
  | clone call =>
    obtain ⟨k₁, hclone, hcur, hready, hother⟩ := clone_cases call k
    rw [handle, hclone, Outcome.next] at hstep
    cases hstep
    exact .cloned hcur hready hother
  | alarm ticks =>
    obtain ⟨k₁, halarm, hsame⟩ := doAlarm_same ticks k
    rw [handle, halarm, Outcome.next] at hstep
    cases hstep
    exact .kept hsame
  | signal signo handler =>
    obtain ⟨k₁, hsignal, hsame⟩ := signal_same signo handler k
    rw [handle, hsignal, Outcome.next] at hstep
    cases hstep
    exact .kept hsame

end Effects

end OsAssignments.Scheduler
