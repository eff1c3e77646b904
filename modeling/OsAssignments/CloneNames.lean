import OsAssignments.Alarms

/-!
# The names of clones

`do_clone` writes the digits of the new number over the terminator of the parent's name
and writes no terminator after them. The name is right when the bytes behind the old
terminator happen to fit, and number 10 has no digits at all.
-/
namespace OsAssignments.Scheduler

open Machine

variable {k k' : Kernel} {e : Event} {es : List Event} {pid : Pid}
variable {name s : Fin 64 → BitVec 8} {array : ℕ → BitVec 8} {i d : ℕ}

section Strings

/-- A name that ends within its field. -/
def Terminated (s : Fin 64 → BitVec 8) : Prop := ∃ i, s i = 0

instance (s : Fin 64 → BitVec 8) : Decidable (Terminated s) := inferInstanceAs (Decidable (∃ _, _))

/-- The characters of a name. -/
def str (s : Fin 64 → BitVec 8) : List (BitVec 8) := (List.ofFn s).take (strlen s)

/-- The decimal digits of a number, as characters. -/
def decimal (pid : Pid) : List (BitVec 8) :=
  (Nat.toDigits 10 pid.val).map fun c => BitVec.ofNat 8 c.toNat

lemma strlen_cases (s : Fin 64 → BitVec 8) :
    (∃ h : strlen s < 64, s ⟨strlen s, h⟩ = 0 ∧ ∀ j : Fin 64, j.val < strlen s → s j ≠ 0) ∨
      strlen s = 64 ∧ ∀ j, s j ≠ 0 := by
  unfold strlen
  cases hfind : (List.finRange 64).find? fun i => s i = 0 with
  | none =>
    simp only [List.find?_eq_none, List.mem_finRange, decide_eq_true_eq, forall_const] at hfind
    exact Or.inr ⟨rfl, hfind⟩
  | some i =>
    simp only [List.find?_eq_some_iff_getElem, decide_eq_true_eq, List.length_finRange,
      List.getElem_finRange, Bool.not_eq_true', decide_eq_false_iff_not] at hfind
    obtain ⟨hzero, n, hn, rfl, hbefore⟩ := hfind
    exact Or.inl ⟨hn, hzero, fun j hj => hbefore j.val hj⟩

lemma strlen_le (s : Fin 64 → BitVec 8) : strlen s ≤ 64 := by
  rcases strlen_cases s with ⟨h, -⟩ | ⟨h, -⟩ <;> omega

lemma strlen_lt (h : Terminated s) : strlen s < 64 := by
  obtain ⟨i, hi⟩ := h
  rcases strlen_cases s with ⟨hlt, -⟩ | ⟨-, hall⟩
  · exact hlt
  · exact absurd hi (hall i)

lemma at_strlen (h : strlen s < 64) : s ⟨strlen s, h⟩ = 0 := by
  rcases strlen_cases s with ⟨_, hzero, _⟩ | ⟨heq, -⟩
  · exact hzero
  · omega

lemma before_strlen {j : Fin 64} (h : j.val < strlen s) : s j ≠ 0 := by
  rcases strlen_cases s with ⟨_, _, hbefore⟩ | ⟨-, hall⟩
  · exact hbefore j h
  · exact hall j

lemma strlen_eq {j : Fin 64} (hzero : s j = 0) (h : ∀ m : Fin 64, m.val < j.val → s m ≠ 0) :
    strlen s = j.val := by
  have hlt := strlen_lt ⟨j, hzero⟩
  rcases Nat.lt_trichotomy (strlen s) j.val with hl | he | hg
  · exact absurd (at_strlen hlt) (h ⟨strlen s, hlt⟩ hl)
  · exact he
  · exact absurd hzero (before_strlen hg)

@[simp] lemma length_str (s : Fin 64 → BitVec 8) : (str s).length = strlen s := by
  have hle := strlen_le s
  simp [str, hle]

end Strings

section Digits

/-- The characters that `do_clone` writes. -/
def written (pid : Pid) : List (BitVec 8) := if pid = 10 then [] else decimal pid

lemma decimal_small : ∀ pid : Pid, pid.val < 10 →
    decimal pid = [BitVec.ofNat 8 (pid.val + 48)] := by
  decide

lemma decimal_large : ∀ pid : Pid, 10 ≤ pid.val →
    decimal pid = [49, BitVec.ofNat 8 (pid.val % 10 % 10 + 48)] := by
  decide

lemma decimal_ne_zero : ∀ pid : Pid, ∀ b ∈ decimal pid, b ≠ 0 := by
  decide

/-- The bytes of `new_name`: the digits stand where the name ended, the others are as they were. -/
theorem newName_eq : newName array name pid i =
    if strlen name ≤ i ∧ i < strlen name + (written pid).length then
      (written pid).getD (i - strlen name) 0
    else if h : i < 64 then name ⟨i, h⟩ else array i := by
  unfold newName
  dsimp only
  generalize strlen name = d
  rcases Nat.lt_trichotomy pid.val 10 with hlt | heq | hgt
  · have hne : pid ≠ 10 := by
      rintro rfl
      exact absurd hlt (by decide)
    rw [written, if_neg hne, decimal_small pid hlt, if_pos hlt, if_neg (Nat.not_lt.mpr hlt.le),
      Function.update_apply, List.length_singleton]
    by_cases hi : i = d
    · subst hi
      simp
    · rw [if_neg hi, if_neg (by omega)]
  · have hten : pid = 10 := Fin.ext heq
    subst hten
    rw [written, if_pos rfl, if_neg (by decide), if_neg (by decide), List.length_nil,
      if_neg (by omega)]
  · have hne : pid ≠ 10 := by
      rintro rfl
      exact absurd hgt (by decide)
    rw [written, if_neg hne, decimal_large pid hgt.le, if_pos hgt,
      if_neg (Nat.not_lt.mpr hgt.le), Function.update_apply, Function.update_apply,
      List.length_cons, List.length_singleton]
    by_cases hi : i = d
    · subst hi
      simp
    · by_cases hi' : i = d + 1
      · subst hi'
        simp
      · rw [if_neg hi', if_neg hi, if_neg (by omega)]

end Digits

section Names

/-- The name of a clone. -/
def childName (array : ℕ → BitVec 8) (name : Fin 64 → BitVec 8) (pid : Pid) : Fin 64 → BitVec 8 :=
  fun i => newName array name pid i

/-- What the name of a clone should be: it ends within its field, it is the name of the parent
with the digits of the new number where that fits, and only its field is written. -/
structure Named (array : ℕ → BitVec 8) (parent child : Fin 64 → BitVec 8) (pid : Pid) : Prop where
  terminated : Terminated child
  extended : strlen parent + (decimal pid).length < 64 → str child = str parent ++ decimal pid
  inside : ∀ i, 64 ≤ i → newName array parent pid i = array i

/-- The digits of a number other than 10 fit, with a terminator that is there already; those of
10 do not fit. -/
def Clean (name : Fin 64 → BitVec 8) (pid : Pid) : Prop :=
  pid = 10 ∧ 62 ≤ strlen name ∨
    pid ≠ 10 ∧ ∃ h : strlen name + (decimal pid).length < 64, name ⟨_, h⟩ = 0

instance (name : Fin 64 → BitVec 8) (pid : Pid) : Decidable (Clean name pid) :=
  inferInstanceAs (Decidable (_ ∨ _))

lemma childName_ten : childName array name 10 = name := by
  funext i
  have hten : written 10 = [] := rfl
  rw [childName, newName_eq, hten, List.length_nil, if_neg (by omega), dif_pos i.isLt]

variable (hpid : pid ≠ 10)
include hpid

lemma childName_after {j : Fin 64} (h : strlen name + (decimal pid).length ≤ j.val) :
    childName array name pid j = name j := by
  rw [childName, newName_eq, written, if_neg hpid, if_neg (by omega), dif_pos j.isLt]

lemma childName_digit {j : Fin 64} {n : ℕ} (hn : n < (decimal pid).length)
    (h : j.val = strlen name + n) : childName array name pid j = (decimal pid)[n] := by
  rw [childName, newName_eq, written, if_neg hpid, if_pos (by omega), h, Nat.add_sub_cancel_left]
  simp [hn]

omit hpid in
lemma childName_before {j : Fin 64} (h : j.val < strlen name) :
    childName array name pid j = name j := by
  rw [childName, newName_eq, if_neg (by omega), dif_pos j.isLt]

/-- The bytes up to the end of the digits are characters. -/
lemma childName_ne_zero {j : Fin 64} (h : j.val < strlen name + (decimal pid).length) :
    childName array name pid j ≠ 0 := by
  rcases Nat.lt_or_ge j.val (strlen name) with hlt | hge
  · rw [childName_before hlt]
    exact before_strlen hlt
  · rw [childName_digit hpid (n := j.val - strlen name) (by omega) (by omega)]
    exact decimal_ne_zero pid _ (List.getElem_mem _)

lemma strlen_childName (h : strlen name + (decimal pid).length < 64)
    (hzero : name ⟨_, h⟩ = 0) :
    strlen (childName array name pid) = strlen name + (decimal pid).length := by
  refine strlen_eq (j := ⟨_, h⟩) ?_ fun m hm => childName_ne_zero hpid hm
  rw [childName_after hpid le_rfl, hzero]

omit hpid in
lemma getElem_str (s : Fin 64 → BitVec 8) (h : d < (str s).length) :
    (str s)[d] = s ⟨d, by have := strlen_le s; rw [length_str] at h; omega⟩ := by
  simp only [str, List.getElem_take, List.getElem_ofFn]

lemma str_childName (h : strlen name + (decimal pid).length < 64) (hzero : name ⟨_, h⟩ = 0) :
    str (childName array name pid) = str name ++ decimal pid := by
  have hlen : strlen (childName array name pid) = _ := strlen_childName hpid h hzero
  apply List.ext_getElem
  · rw [List.length_append, length_str, length_str, hlen]
  · intro n hn hn'
    rw [getElem_str]
    rcases Nat.lt_or_ge n (strlen name) with hlt | hge
    · rw [List.getElem_append_left (by rwa [length_str]), getElem_str, childName_before hlt]
    · rw [List.getElem_append_right (by rwa [length_str])]
      simp only [length_str]
      apply childName_digit hpid
      dsimp only
      omega

omit hpid in
/-- The name of a clone is right for a clean parent and for no other. -/
theorem named_iff (hname : Terminated name) :
    Named array name (childName array name pid) pid ↔ Clean name pid := by
  by_cases hpid : pid = 10
  · subst hpid
    have hlen : (decimal 10).length = 2 := rfl
    constructor
    · intro h
      refine Or.inl ⟨rfl, ?_⟩
      by_contra hlt
      have hext := congrArg List.length (h.extended (by omega))
      rw [childName_ten, List.length_append, hlen] at hext
      omega
    · rintro (⟨-, hlong⟩ | ⟨hne, -⟩)
      · refine ⟨?_, fun hfits => absurd hfits (by omega), fun i hi => ?_⟩
        · rw [childName_ten]
          exact hname
        · have hlt := strlen_lt hname
          have hten : written 10 = [] := rfl
          rw [newName_eq, hten, List.length_nil, if_neg (by omega), dif_neg (by omega)]
      · exact absurd rfl hne
  · constructor
    · intro h
      obtain ⟨i, hi⟩ := h.terminated
      have hfits : strlen name + (decimal pid).length < 64 := by
        by_contra hlong
        exact childName_ne_zero hpid (by omega) hi
      have hext := congrArg List.length (h.extended hfits)
      rw [List.length_append, length_str, length_str] at hext
      have hzero := at_strlen (s := childName array name pid) (by omega)
      rw [childName_after hpid hext.ge] at hzero
      refine Or.inr ⟨hpid, hfits, ?_⟩
      rw [← hzero]
      exact congrArg name (Fin.ext hext.symm)
    · rintro (⟨hten, -⟩ | ⟨-, hfits, hzero⟩)
      · exact absurd hten hpid
      · refine ⟨⟨⟨_, hfits⟩, ?_⟩, fun _ => str_childName hpid hfits hzero, fun i hi => ?_⟩
        · rw [childName_after hpid le_rfl, hzero]
        · rw [newName_eq, written, if_neg hpid, if_neg (by omega), dif_neg (by omega)]

end Names

section Runs

variable {r : Option (Abi → UserRegs)} {call : CloneCall}

lemma offAlarm_name : OffAlarm ExecContext.name :=
  ⟨⟨fun _ _ => rfl, fun _ _ => rfl, fun _ _ => rfl⟩, fun _ _ _ => rfl⟩

/-- Only a clone writes a name, that of the new context. -/
lemma step_names (hclone : ∀ call, e ≠ .clone call) (hstep : step k e = some (k', r)) :
    Kept ExecContext.name k k' := by
  by_cases hsignal : ∃ signo handler, e = .signal signo handler
  · obtain ⟨signo, handler, rfl⟩ := hsignal
    cases hstep
    exact (Kept.refl ExecContext.name k).modify fun _ => rfl
  · have hnone : ∀ signo handler, e ≠ .signal signo handler :=
      fun signo handler he => hsignal ⟨signo, handler, he⟩
    exact step_kept offAlarm_name hclone hnone hstep

lemma clone_names (hstep : step k (.clone call) = some (k', r)) (i : Pid) :
    (k'.ctxs i).name = if i = call.pid then
      childName call.array (k.ctxs k.current).name call.pid else (k.ctxs i).name := by
  cases hstep
  rw [Kernel.modify_ctxs]
  split_ifs with hi
  · rfl
  · rfl

/-- Every name ends within its field. -/
def NamesEnd (k : Kernel) : Prop := ∀ i, Terminated (k.ctxs i).name

instance (k : Kernel) : Decidable (NamesEnd k) := inferInstanceAs (Decidable (∀ _, _))

/-- A clone names its context as it should. -/
def NamesRight (k : Kernel) (e : Event) : Prop :=
  ∀ call k' r, e = .clone call → step k e = some (k', r) →
    Named call.array (k.ctxs k.current).name (k'.ctxs call.pid).name call.pid

/-- A clone of a clean parent. -/
def CleanClone (k : Kernel) (e : Event) : Prop :=
  ∀ call, e = .clone call → Clean (k.ctxs k.current).name call.pid

instance (k : Kernel) : (e : Event) → Decidable (CleanClone k e)
  | .clone call => decidable_of_iff (Clean (k.ctxs k.current).name call.pid)
      ⟨fun h _ he => Event.clone.inj he ▸ h, fun h => h call rfl⟩
  | .tick _ | .exit _ _ | .sleep _ _ _ | .alarm _ | .signal _ _ => isTrue fun _ he => nomatch he

lemma namesRight_iff (h : NamesEnd k) : NamesRight k e ↔ CleanClone k e := by
  have hchild : ∀ call k' r, e = .clone call → step k e = some (k', r) →
      (k'.ctxs call.pid).name = childName call.array (k.ctxs k.current).name call.pid := by
    rintro call k' r rfl hstep
    rw [clone_names hstep call.pid, if_pos rfl]
  constructor
  · intro hright call he
    obtain ⟨k', r, hstep⟩ : ∃ k' r, step k e = some (k', r) := by
      rw [he]
      exact ⟨_, _, rfl⟩
    have hnamed := hright call k' r he hstep
    rw [hchild call k' r he hstep] at hnamed
    exact (named_iff (h k.current)).mp hnamed
  · intro hclean call k' r he hstep
    rw [hchild call k' r he hstep]
    exact (named_iff (h k.current)).mpr (hclean call he)

lemma namesEnd_step (h : NamesEnd k) (hvalid : e.Valid k) (hclean : CleanClone k e)
    (hstep : step k e = some (k', r)) : NamesEnd k' := by
  intro i
  by_cases hclone : ∃ call, e = .clone call
  · obtain ⟨call, he⟩ := hclone
    have hnamed := (namesRight_iff h).mpr hclean call k' r he hstep
    rcases eq_or_ne i call.pid with rfl | hi
    · exact hnamed.terminated
    · subst he
      rw [clone_names hstep i, if_neg hi]
      exact h i
  · rw [step_names (fun call heq => hclone ⟨call, heq⟩) hstep i]
    exact h i

/-- The clones of a run are named as they should exactly when each of them finds a clean parent;
all names end within their fields then. -/
theorem clone_names_iff (k : Kernel) (hnames : NamesEnd k) (es : List Event)
    (hvalid : Along step (fun k e => e.Valid k) k es) :
    (Along step NamesRight k es ↔ Along step CleanClone k es) ∧
    (Along step CleanClone k es → ∀ k' rs, run step k es = some (k', rs) → NamesEnd k') := by
  have hkeep : ∀ s e s' r, NamesEnd s → e.Valid s ∧ CleanClone s e → step s e = some (s', r) →
      NamesEnd s' := fun s e s' r hs he hstep => namesEnd_step hs he.1 he.2 hstep
  constructor
  · have hboth : Along step (fun k e => e.Valid k ∧ NamesRight k e) k es ↔
        Along step (fun k e => e.Valid k ∧ CleanClone k e) k es :=
      Along.congr (D := fun _ => True) (I := NamesEnd)
        (fun s e hs _ => and_congr_right fun _ => namesRight_iff hs)
        (fun s e s' r hs _ he hstep => hkeep s e s' r hs he hstep) hnames fun _ _ => trivial
    rw [along_and, along_and] at hboth
    exact and_congr_right_iff.mp hboth hvalid
  · intro hclean k' rs hrun
    exact Along.invariant hkeep (along_and.mpr ⟨hvalid, hclean⟩) hnames hrun

lemma boot_namesEnd : NamesEnd boot := fun _ => ⟨0, rfl⟩

/-- The first process is called `init`. -/
def bootInit : Kernel :=
  boot.modify 1 fun c => { c with name := fun i => [105, 110, 105, 116].getD i 0 }

/-- The clones of `init` are called `init3` and `init12`, and a clone of `init3` is called
`init314`. -/
def namedRun : List Event :=
  [.clone (cloneInto 3), .clone (cloneInto 12), .tick noRegs, .clone (cloneInto 14)]

theorem clone_names_two : Along step NamesRight bootInit namedRun :=
  (clone_names_iff bootInit (by decide +kernel) namedRun (by decide +kernel)).1.mpr
    (by decide +kernel)

/-- Context 10 gets the name of its parent. -/
theorem clone_ten_unnamed : ¬∀ (k : Kernel) (es : List Event), NamesEnd k →
    Along step (fun k e => e.Valid k) k es → Along step NamesRight k es := by
  intro hclaim
  have hright := (hclaim boot [.clone (cloneInto 10)] boot_namesEnd
    ⟨⟨boot_started.user, by decide, rfl⟩, fun _ _ _ => trivial⟩).1
  have hclean := (namesRight_iff boot_namesEnd).mp hright (cloneInto 10) rfl
  rcases hclean with ⟨-, hlong⟩ | ⟨hne, -⟩
  · have hlen : strlen (boot.ctxs boot.current).name = 0 := by decide
    omega
  · exact hne rfl

end Runs

end OsAssignments.Scheduler
