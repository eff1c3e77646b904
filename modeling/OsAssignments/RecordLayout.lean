import OsAssignments.Dispatching

/-!
# The records of the contexts in memory

`struct exec_context` is 424 bytes long, 53 words of eight bytes. A store of one word into a
record changes the members that lie in that word. Where the records are is up to the
sources that are not here; they do not overlap.
-/
namespace OsAssignments.Scheduler

open Paging (Word MmSeg MmSegment)

variable {k k' : Kernel} {p q : Pid} {c : ExecContext} {w : Word} {a : ℤ} {n : ℕ}

section Words

/-- What lies in a word of a record. -/
inductive Part
  | head
  | frames
  | osRsp
  | segment (seg : MmSeg) (i : Fin 4)
  | name (i : Fin 8)
  | reg (i : Fin 20)
  | pending
  | handler (signo : Signal)
  | sleep
  | alarm
  deriving DecidableEq

/-- The words of a record, in the order of the members. -/
def parts : List Part :=
  [.head, .frames, .osRsp] ++
    [MmSeg.code, .rodata, .data, .stack].flatMap
      (fun seg => (List.finRange 4).map (.segment seg)) ++
    (List.finRange 8).map .name ++ (List.finRange 20).map .reg ++ [.pending] ++
    [Signal.segv, .fpe, .alrm].map .handler ++ [.sleep, .alarm]

/-- The size of a record. -/
def recordWords : ℕ := parts.length

lemma recordWords_eq : recordWords = 53 := rfl

/-- The place of `sighandlers` in a record. -/
def handlersAt : ℕ := 48

/-- `n` bits of a word, from bit `start` on. -/
abbrev bits (w : Word) (start n : ℕ) : BitVec n := w.extractLsb' start n

/-- `enum process_state`. -/
def ProcessState.ofByte (b : BitVec 8) : Option ProcessState :=
  [ProcessState.unused, .new, .ready, .running, .waiting, .exiting][b.toNat]?

/-- The words of `struct user_regs`. -/
def UserRegs.words (r : UserRegs) : Fin 20 → Word :=
  ![r.r15, r.r14, r.r13, r.r12, r.r11, r.r10, r.r9, r.r8, r.rbp, r.rdi, r.rsi, r.rdx, r.rcx, r.rbx,
    r.rax, r.entryRip, r.entryCs, r.entryRflags, r.entryRsp, r.entrySs]

def UserRegs.ofWords (f : Fin 20 → Word) : UserRegs where
  r15 := f 0
  r14 := f 1
  r13 := f 2
  r12 := f 3
  r11 := f 4
  r10 := f 5
  r9 := f 6
  r8 := f 7
  rbp := f 8
  rdi := f 9
  rsi := f 10
  rdx := f 11
  rcx := f 12
  rbx := f 13
  rax := f 14
  entryRip := f 15
  entryCs := f 16
  entryRflags := f 17
  entryRsp := f 18
  entrySs := f 19

@[simp] lemma UserRegs.ofWords_words (r : UserRegs) : ofWords r.words = r := rfl

@[simp] lemma UserRegs.words_ofWords (f : Fin 20 → Word) : (ofWords f).words = f := by
  funext i
  fin_cases i <;> rfl

/-- A word of `struct mm_segment` is stored; the last one is half padding. -/
def setSegment (m : MmSegment) (i : Fin 4) (w : Word) : MmSegment :=
  match i with
  | 0 => { m with start := w }
  | 1 => { m with limit := w }
  | 2 => { m with nextFree := w }
  | 3 => { m with accessFlags := bits w 0 32 }

/-- A word is stored into the record of context `p`. A record with another number, or with a
state that has no name, is none of the contexts here. -/
def setPart (p : Pid) (c : ExecContext) (w : Word) : Part → Option ExecContext
  | .head =>
    match ProcessState.ofByte (bits w 40 8) with
    | some state =>
      if bits w 0 32 = BitVec.ofNat 32 p then
        some { c with type := bits w 32 8, state := state, usedMem := bits w 48 16 }
      else none
    | none => none
  | .frames => some { c with pgd := bits w 0 32, osStackPfn := bits w 32 32 }
  | .osRsp => some { c with osRsp := w }
  | .segment seg i => some { c with mms := Function.update c.mms seg (setSegment (c.mms seg) i w) }
  | .name i => some { c with name := fun j =>
      if j.val / 8 = i.val then bits w (8 * (j.val % 8)) 8 else c.name j }
  | .reg i => some { c with regs := .ofWords (Function.update c.regs.words i w) }
  | .pending => some { c with pendingSignalBitmap := bits w 0 32 }
  | .handler signo => some { c with sighandlers := Function.update c.sighandlers signo w }
  | .sleep => some { c with ticksToSleep := bits w 0 32, alarmConfigTime := bits w 32 32 }
  | .alarm => some { c with ticksToAlarm := bits w 0 32 }

/-- The bytes of the members in a part are those of the word. -/
def Holds (p : Pid) (c : ExecContext) (w : Word) : Part → Prop
  | .head => bits w 0 32 = BitVec.ofNat 32 p ∧ bits w 32 8 = c.type ∧
      ProcessState.ofByte (bits w 40 8) = some c.state ∧ bits w 48 16 = c.usedMem
  | .frames => bits w 0 32 = c.pgd ∧ bits w 32 32 = c.osStackPfn
  | .osRsp => w = c.osRsp
  | .segment seg 0 => w = (c.mms seg).start
  | .segment seg 1 => w = (c.mms seg).limit
  | .segment seg 2 => w = (c.mms seg).nextFree
  | .segment seg 3 => bits w 0 32 = (c.mms seg).accessFlags
  | .name i => ∀ j : Fin 64, j.val / 8 = i.val → bits w (8 * (j.val % 8)) 8 = c.name j
  | .reg i => w = c.regs.words i
  | .pending => bits w 0 32 = c.pendingSignalBitmap
  | .handler signo => w = c.sighandlers signo
  | .sleep => bits w 0 32 = c.ticksToSleep ∧ bits w 32 32 = c.alarmConfigTime
  | .alarm => bits w 0 32 = c.ticksToAlarm

end Words

section Stores

lemma setSegment_eq {m : MmSegment} (i : Fin 4) (seg : MmSeg) (hm : c.mms seg = m) :
    setSegment m i w = m ↔ Holds p c w (.segment seg i) := by
  subst hm
  cases hseg : c.mms seg
  fin_cases i <;> simp [setSegment, Holds, hseg]

lemma setReg_eq {r : UserRegs} (i : Fin 20) :
    UserRegs.ofWords (Function.update r.words i w) = r ↔ w = r.words i := by
  constructor
  · intro h
    have hword := congrFun (congrArg UserRegs.words h) i
    rwa [UserRegs.words_ofWords, Function.update_self] at hword
  · rintro rfl
    rw [Function.update_eq_self, UserRegs.ofWords_words]

/-- A store changes nothing exactly when the bytes are there already. -/
theorem setPart_eq_self (q : Part) : setPart p c w q = some c ↔ Holds p c w q := by
  cases q with
  | head =>
    unfold setPart Holds
    cases hbyte : ProcessState.ofByte (bits w 40 8) with
    | none => simp
    | some state =>
      split_ifs with hpid
      · cases c
        simp [hpid]
      · simp [hpid]
  | frames =>
    cases c
    simp [setPart, Holds]
  | osRsp =>
    cases c
    simp [setPart, Holds]
  | segment seg i =>
    rw [← setSegment_eq i seg rfl, setPart, Option.some.injEq]
    cases c
    simp [Function.update_eq_self_iff]
  | name i =>
    cases c
    simp only [setPart, Holds, Option.some.injEq, ExecContext.mk.injEq, true_and, and_true,
      funext_iff]
    refine forall_congr' fun j => ?_
    split_ifs with hj
    · simp [hj]
    · simp [hj]
  | reg i =>
    cases c
    simp [setPart, Holds, setReg_eq]
  | pending =>
    cases c
    simp [setPart, Holds]
  | handler signo =>
    cases c
    simp [setPart, Holds, Function.update_eq_self_iff]
  | sleep =>
    cases c
    simp [setPart, Holds]
  | alarm =>
    cases c
    simp [setPart, Holds]

end Stores

section Placement

/-- Where the records are, counted in words; they do not overlap. -/
structure Placement where
  start : Pid → ℤ
  apart : ∀ p q, p ≠ q → start p + recordWords ≤ start q ∨ start q + recordWords ≤ start p

/-- The record at an address, and the part of it. -/
def Placement.find (P : Placement) (a : ℤ) : Option (Pid × Part) :=
  (List.finRange 16).findSome? fun p =>
    if P.start p ≤ a then parts[(a - P.start p).toNat]?.map fun q => (p, q) else none

/-- A word is stored at an address. What lies outside the records is not in the sources, so
that nothing is known of the kernel after a store there. -/
def Placement.store (P : Placement) (a : ℤ) (w : Word) (k : Kernel) : Option Kernel :=
  match P.find a with
  | some (p, q) =>
    (setPart p (k.ctxs p) w q).map fun c => { k with ctxs := Function.update k.ctxs p c }
  | none => none

variable {P : Placement} {part : Part}

theorem Placement.find_eq_some :
    P.find a = some (p, part) ↔ ∃ n : ℕ, parts[n]? = some part ∧ a = P.start p + n := by
  have hfound : ∀ p q, P.find a = some (p, q) →
      ∃ n : ℕ, parts[n]? = some q ∧ a = P.start p + n := by
    intro p q h
    obtain ⟨i, -, hi⟩ := List.exists_of_findSome?_eq_some h
    split_ifs at hi with hle
    rw [Option.map_eq_some_iff] at hi
    obtain ⟨x, hx, hpair⟩ := hi
    cases hpair
    exact ⟨_, hx, by omega⟩
  refine ⟨hfound p part, ?_⟩
  rintro ⟨n, hn, rfl⟩
  cases hfind : P.find (P.start p + n) with
  | none =>
    rw [Placement.find, List.findSome?_eq_none_iff] at hfind
    have hp := hfind p (List.mem_finRange p)
    rw [if_pos (by omega), show (P.start p + n - P.start p).toNat = n by omega, hn] at hp
    cases hp
  | some x =>
    obtain ⟨q, part'⟩ := x
    obtain ⟨n', hn', heq⟩ := hfound q part' hfind
    have hlt : n < recordWords := (List.getElem?_eq_some_iff.mp hn).1
    have hlt' : n' < recordWords := (List.getElem?_eq_some_iff.mp hn').1
    by_cases hpq : p = q
    · subst hpq
      have hnn : n' = n := by omega
      rw [hnn, hn] at hn'
      cases hn'
      rfl
    · have := P.apart p q hpq
      omega

/-- A store leaves the kernel as it is when the bytes are there already. -/
theorem Placement.store_eq_self : P.store a w k = some k ↔
    ∃ p part, P.find a = some (p, part) ∧ Holds p (k.ctxs p) w part := by
  unfold Placement.store
  cases hfind : P.find a with
  | none => simp
  | some x =>
    obtain ⟨p, part⟩ := x
    simp only [Option.some.injEq, Prod.mk.injEq, Option.map_eq_some_iff, ← setPart_eq_self]
    constructor
    · rintro ⟨c, hc, hk⟩
      refine ⟨p, part, ⟨rfl, rfl⟩, ?_⟩
      have hctx : Function.update k.ctxs p c p = k.ctxs p := congrFun (congrArg Kernel.ctxs hk) p
      rw [Function.update_self] at hctx
      rw [hc, hctx]
    · rintro ⟨p', part', ⟨rfl, rfl⟩, hc⟩
      exact ⟨_, hc, by rw [Function.update_eq_self]⟩

end Placement

end OsAssignments.Scheduler
