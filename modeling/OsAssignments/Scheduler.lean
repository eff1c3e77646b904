import OsAssignments.Paging

/-!
# The scheduler

The timer interrupt and the system calls that switch between the 16 contexts, with the
registers and the interrupt frame that each of them saves and restores. The functions
called from them that are not part of the sources are only known to keep the registers
that a call has to keep; the code compiled from C statements may leave anything in them,
and fetches the operand of an asm line through a register of the compiler's choice.
-/
namespace OsAssignments.Scheduler

open Paging (Word MmSeg MmSegment)

/-- The number of a context; the swapper has number 0. -/
abbrev Pid := Fin 16

instance neZero_pids : NeZero 16 := ⟨by decide⟩

/-- The signals, `MAX_SIGNALS` in number. -/
inductive Signal
  | segv | fpe | alrm
  deriving DecidableEq

inductive ProcessState
  | unused | new | ready | running | waiting | exiting
  deriving DecidableEq

/-- The registers without `rsp`. -/
@[ext] structure Regs where
  r15 : Word
  r14 : Word
  r13 : Word
  r12 : Word
  r11 : Word
  r10 : Word
  r9 : Word
  r8 : Word
  rbp : Word
  rdi : Word
  rsi : Word
  rdx : Word
  rcx : Word
  rbx : Word
  rax : Word

/-- The registers that the operand of an asm line can go through; `rsp` and `rbp` hold the
frame. -/
inductive Reg
  | r15 | r14 | r13 | r12 | r11 | r10 | r9 | r8 | rdx | rcx | rbx | rax | rsi | rdi
  deriving DecidableEq

def Regs.get (r : Regs) : Reg → Word
  | .r15 => r.r15
  | .r14 => r.r14
  | .r13 => r.r13
  | .r12 => r.r12
  | .r11 => r.r11
  | .r10 => r.r10
  | .r9 => r.r9
  | .r8 => r.r8
  | .rdx => r.rdx
  | .rcx => r.rcx
  | .rbx => r.rbx
  | .rax => r.rax
  | .rsi => r.rsi
  | .rdi => r.rdi

def Regs.set (r : Regs) (w : Word) : Reg → Regs
  | .r15 => { r with r15 := w }
  | .r14 => { r with r14 := w }
  | .r13 => { r with r13 := w }
  | .r12 => { r with r12 := w }
  | .r11 => { r with r11 := w }
  | .r10 => { r with r10 := w }
  | .r9 => { r with r9 := w }
  | .r8 => { r with r8 := w }
  | .rdx => { r with rdx := w }
  | .rcx => { r with rcx := w }
  | .rbx => { r with rbx := w }
  | .rax => { r with rax := w }
  | .rsi => { r with rsi := w }
  | .rdi => { r with rdi := w }

/-- `struct user_regs`: the registers and the five words of an interrupt frame. -/
@[ext] structure UserRegs extends Regs where
  entryRip : Word
  entryCs : Word
  entryRflags : Word
  entryRsp : Word
  entrySs : Word

/-- `struct exec_context`. -/
structure ExecContext where
  type : BitVec 8
  state : ProcessState
  usedMem : BitVec 16
  pgd : BitVec 32
  osStackPfn : BitVec 32
  osRsp : Word
  mms : MmSeg → MmSegment
  name : Fin 64 → BitVec 8
  regs : UserRegs
  pendingSignalBitmap : BitVec 32
  sighandlers : Signal → Word
  ticksToSleep : BitVec 32
  alarmConfigTime : BitVec 32
  ticksToAlarm : BitVec 32

/-- The contexts by number, the one that `get_current_ctx` returns, and the words of user
memory by address. -/
structure Kernel where
  ctxs : Pid → ExecContext
  current : Pid
  user : Word → Word
  /-- Every call of `invoke_sync_signal` so far, by the line that it prints: for which context
  and signal, the last one first. -/
  invoked : List (Pid × Signal)

/-- The context of a number is changed in place. -/
def Kernel.modify (k : Kernel) (pid : Pid) (f : ExecContext → ExecContext) : Kernel :=
  { k with ctxs := Function.update k.ctxs pid (f (k.ctxs pid)) }

/-- A call of a compiled function; it keeps the registers that belong to the caller. -/
structure Call where
  run : Regs → Regs
  rbx : ∀ r, (run r).rbx = r.rbx
  rbp : ∀ r, (run r).rbp = r.rbp
  r12 : ∀ r, (run r).r12 = r.r12
  r13 : ∀ r, (run r).r13 = r.r13
  r14 : ∀ r, (run r).r14 = r.r14
  r15 : ∀ r, (run r).r15 = r.r15

/-- What the source leaves open: the addresses of the contexts, the functions called while
registers are restored, what the code compiled from the C statements before leaves in the
registers, and the register through which each handler fetches the operand of the asm line that
loads a register. -/
structure Abi where
  address : Pid → Word
  body : Regs → Regs
  tickOperand : Reg → Reg
  exitOperand : Reg → Reg
  sleepOperand : Reg → Reg
  setTssStackPtr : Call
  setCurrentCtx : Call
  ackIrq : Call

/-- How a handler ends. `do_cleanup` does not return; an `iretq` leaves registers that depend
on what the source leaves open; system calls that do not switch return to their caller. -/
inductive Outcome
  | cleanup (k : Kernel)
  | iretq (k : Kernel) (regs : Abi → UserRegs)
  | ret (k : Kernel)

section Frames

/-- The saved `rbp` and the frame of the interrupt above it, from `t2` on. -/
abbrev Frame := Fin 6 → Word

def frameOf (r : UserRegs) : Frame :=
  ![r.rbp, r.entryRip, r.entryCs, r.entryRflags, r.entryRsp, r.entrySs]

/-- The words from `t1` on, after the registers have been pushed one after the other. -/
def pushes (r : Regs) : List Word :=
  [r.rax, r.rbx, r.rcx, r.rdx, r.r8, r.r9, r.r10, r.r11, r.r12, r.r13, r.r14, r.r15, r.rsi,
    r.rdi].foldl (fun stack w => w :: stack) []

/-- The registers are popped in the opposite order. -/
def pops (t1 : List Word) (r : Regs) : Regs :=
  { r with
    rdi := t1.getD 0 0, rsi := t1.getD 1 0, r15 := t1.getD 2 0, r14 := t1.getD 3 0
    r13 := t1.getD 4 0, r12 := t1.getD 5 0, r11 := t1.getD 6 0, r10 := t1.getD 7 0
    r9 := t1.getD 8 0, r8 := t1.getD 9 0, rdx := t1.getD 10 0, rcx := t1.getD 11 0
    rbx := t1.getD 12 0, rax := t1.getD 13 0 }

/-- The tick saves the pushed registers. -/
def savePushes (t1 : List Word) (regs : UserRegs) : UserRegs :=
  { regs with toRegs := { pops t1 regs.toRegs with rbp := regs.rbp } }

/-- The words from `t2` on are saved. -/
def saveFrame (t2 : Frame) (regs : UserRegs) : UserRegs :=
  { regs with
    rbp := t2 0, entryRip := t2 1, entryCs := t2 2, entryRflags := t2 3, entryRsp := t2 4
    entrySs := t2 5 }

/-- `do_sleep` saves the registers that the system call left on the kernel stack, where word
`n` is `*(temp2-n)`; `rax` is not saved. -/
def saveSyscall (stack : ℕ → Word) (regs : UserRegs) : UserRegs :=
  { regs with
    entryRip := stack 4, entryCs := 0x23, entryRflags := stack 2, entryRsp := stack 1
    entrySs := 0x2b, rbx := stack 5, rcx := stack 6, rdx := stack 7, rsi := stack 8
    rdi := stack 9, rbp := stack 10, r8 := stack 11, r9 := stack 12, r10 := stack 13
    r11 := stack 14, r12 := stack 15, r13 := stack 16, r14 := stack 17, r15 := stack 18 }

/-- `mov %0,%%reg`, with the operand `init->regs.reg` fetched through a register first. -/
def loadReg (operand : Reg → Reg) (init : UserRegs) (cpu : Regs) (reg : Reg) : Regs :=
  let cpu := cpu.set (init.get reg) (operand reg)
  cpu.set (cpu.get (operand reg)) reg

/-- The asm lines from `mov %0,%%r15` to `mov %0,%%rdi`. -/
def loadOrder : List Reg :=
  [.r15, .r14, .r13, .r12, .r11, .r10, .r9, .r8, .rdx, .rcx, .rbx, .rax, .rsi, .rdi]

def loadRegs (operand : Reg → Reg) (init : UserRegs) (cpu : Regs) : Regs :=
  loadOrder.foldl (loadReg operand init) cpu

/-- `mov %rbp, %rsp; pop %rbp; iretq`. -/
def leave (t2 : Frame) (cpu : Regs) : UserRegs :=
  { toRegs := { cpu with rbp := t2 0 }
    entryRip := t2 1, entryCs := t2 2, entryRflags := t2 3, entryRsp := t2 4, entrySs := t2 5 }

/-- A call with an argument, which goes to `rdi`. -/
def Call.withArg (f : Call) (arg : Word) (cpu : Regs) : Regs := f.run { cpu with rdi := arg }

end Frames

section Picking

/-- One round of the loop over all contexts in the tick: every counter goes down, sleeping or
not. -/
def wake (x : Kernel × ℕ) (i : Pid) : Kernel × ℕ :=
  let k := x.1.modify i fun c => { c with ticksToSleep := c.ticksToSleep - 1 }
  let k := if (k.ctxs i).ticksToSleep = 1 then k.modify i fun c => { c with state := .ready } else k
  (k, if (k.ctxs i).state = .waiting then x.2 + 1 else x.2)

/-- The loop over all contexts, and `wait`. -/
def wakeAll (k : Kernel) : Kernel × ℕ := (List.finRange 16).foldl wake (k, 0)

/-- The scan for the next ready context, which skips the swapper; `none` is -1. -/
def pick (k : Kernel) : Option Pid :=
  ((List.range' 1 15).map fun i => k.current + Fin.ofNat 16 i).find?
    fun j => j ≠ 0 ∧ (k.ctxs j).state = .ready

/-- `unused`, counted over the user contexts. -/
def unusedCount (k : Kernel) : ℕ :=
  ((List.finRange 16).tail.filter fun i => (k.ctxs i).state = .unused).length

end Picking

section Handlers

/-- The end of `do_exit`: the registers are loaded, and then functions are called. -/
def exitTo (address : Pid) (init : UserRegs) (cpu : Regs) (abi : Abi) : UserRegs :=
  let t2 := frameOf init
  let cpu := loadRegs abi.exitOperand init (abi.body cpu)
  let cpu := abi.setTssStackPtr.withArg (abi.address address) cpu
  let cpu := abi.setCurrentCtx.withArg (abi.address address) cpu
  leave t2 cpu

/-- `do_exit`; `t2` is its own frame, and `cpu` what it finds in the registers. -/
def doExit (t2 : Frame) (cpu : Regs) (k : Kernel) : Outcome :=
  if k.current = 0 then .cleanup k
  else
    let k := k.modify k.current fun c => { c with state := .unused }
    if unusedCount k = 15 then .cleanup k
    else
      let init := (pick k).getD 0
      let k := k.modify init fun c => { c with state := .running }
      let k := k.modify k.current fun c => { c with regs := saveFrame t2 c.regs }
      .iretq { k with current := init } (exitTo init (k.ctxs init).regs cpu)

/-- `invoke_sync_signal`: the new `*ustackp` and `*urip`, or `none` when it calls `do_exit`. -/
def invokeSyncSignal (signo : Signal) (ustack urip : Word) (k : Kernel) :
    Option (Word × Word × Kernel) :=
  let k := { k with invoked := (k.current, signo) :: k.invoked }
  let handler := (k.ctxs k.current).sighandlers signo
  if handler ≠ 0 then
    some (ustack - 8, handler, { k with user := Function.update k.user (ustack - 8) urip })
  else if signo ≠ .alrm then none
  else some (ustack, urip, k)

/-- The end of a tick that switches: the registers are loaded, and then functions are called. -/
def switchTo (address : Pid) (init : UserRegs) (cpu : Regs) (abi : Abi) : UserRegs :=
  let t2 := frameOf init
  let cpu := loadRegs abi.tickOperand init (abi.body cpu)
  let cpu := abi.setTssStackPtr.withArg (abi.address address) cpu
  let cpu := abi.setCurrentCtx.withArg (abi.address address) cpu
  let cpu := abi.ackIrq.run cpu
  leave t2 cpu

/-- The end of a tick that does not switch: the registers are popped after the call. -/
def resume (t1 : List Word) (t2 : Frame) (cpu : Regs) (abi : Abi) : UserRegs :=
  leave t2 (pops t1 (abi.ackIrq.run (abi.body cpu)))

/-- The alarm of the context that a tick does not switch away from. -/
def alarmAccount (t1 : List Word) (t2 : Frame) (cpu : Regs) (k : Kernel) : Outcome :=
  let k := k.modify k.current fun c => { c with ticksToAlarm := c.ticksToAlarm - 1 }
  if (k.ctxs k.current).ticksToAlarm = 0 then
    let k := k.modify k.current fun c => { c with ticksToAlarm := c.alarmConfigTime }
    match invokeSyncSignal .alrm (t2 4) (t2 1) k with
    | some (ustack, urip, k) =>
      .iretq k (resume t1 (Function.update (Function.update t2 4 ustack) 1 urip) cpu)
    | none => doExit t2 cpu k
  else .iretq k (resume t1 t2 cpu)

/-- `handle_timer_tick`, from the registers and the frame at the interrupt. -/
def handleTimerTick (regs : UserRegs) (k : Kernel) : Outcome :=
  let t1 := pushes regs.toRegs
  let t2 := frameOf regs
  let (k, wait) := wakeAll k
  let changed := pick k
  if changed = none ∧ wait = 0 ∧ k.current = 0 then doExit t2 regs.toRegs k
  else
    let changed := changed.getD k.current
    if changed ≠ k.current then
      let k := k.modify changed fun c => { c with ticksToSleep := 0 }
      let k := k.modify k.current fun c => { c with state := .ready }
      let k := k.modify changed fun c => { c with state := .running }
      let k := k.modify k.current fun c => { c with regs := saveFrame t2 (savePushes t1 c.regs) }
      .iretq { k with current := changed } (switchTo changed (k.ctxs changed).regs regs.toRegs)
    else alarmAccount t1 t2 regs.toRegs k

/-- The end of `do_sleep`: functions are called, and then the registers are loaded. -/
def sleepTo (address : Pid) (rip : Frame) (swp : UserRegs) (cpu : Regs) (abi : Abi) : UserRegs :=
  let cpu := abi.setTssStackPtr.withArg (abi.address address) (abi.body cpu)
  let cpu := abi.setCurrentCtx.withArg (abi.address address) cpu
  let cpu := loadRegs abi.sleepOperand swp cpu
  leave rip cpu

/-- `do_sleep`; `stack` is what the system call pushed, and `cpu` what it finds in the
registers. -/
def doSleep (ticks : BitVec 32) (stack : ℕ → Word) (cpu : Regs) (k : Kernel) : Outcome :=
  let swp := (pick k).getD 0
  let k := k.modify k.current fun c => { c with ticksToSleep := ticks + 1 }
  let k := k.modify k.current fun c => { c with state := .waiting }
  let k := k.modify swp fun c => { c with state := .running }
  let rip := frameOf (k.ctxs swp).regs
  let k := k.modify k.current fun c => { c with regs := saveSyscall stack c.regs }
  .iretq { k with current := swp } (sleepTo swp rip (k.ctxs swp).regs cpu)

end Handlers

section Cloning

/-- The length of a name; a name without a terminator counts 64. -/
def strlen (s : Fin 64 → BitVec 8) : ℕ :=
  ((List.finRange 64).find? fun i => s i = 0).elim 64 Fin.val

/-- `new_name`, from the bytes of the stack it lies in. -/
def newName (array : ℕ → BitVec 8) (name : Fin 64 → BitVec 8) (pid : Pid) : ℕ → BitVec 8 :=
  let array := fun i => if h : i < 64 then name ⟨i, h⟩ else array i
  let d := strlen name
  let d2 := pid.val
  let array := if d2 < 10 then Function.update array d (BitVec.ofNat 8 (d2 + 48)) else array
  if d2 > 10 then
    let d3 := d2 % 10
    Function.update (Function.update array d 49) (d + 1) (BitVec.ofNat 8 (d3 % 10 + 48))
  else array

/-- What a call of `do_clone` finds: the reply of `get_new_ctx`, its arguments, the reply of
`os_pfn_alloc`, the kernel stack below `address`, and the stack `new_name` lies in. -/
structure CloneCall where
  pid : Pid
  thFunc : Word
  userStack : Word
  osStackPfn : BitVec 32
  stack : ℕ → Word
  array : ℕ → BitVec 8

/-- `do_clone`. -/
def doClone (call : CloneCall) (k : Kernel) : Outcome :=
  let current := k.ctxs k.current
  .ret (k.modify call.pid fun c =>
    { c with
      type := current.type
      usedMem := current.usedMem
      pgd := current.pgd
      osRsp := current.osRsp
      name := fun i => newName call.array current.name call.pid i
      mms := current.mms
      sighandlers := current.sighandlers
      ticksToSleep := current.ticksToSleep
      alarmConfigTime := current.alarmConfigTime
      ticksToAlarm := current.ticksToAlarm
      osStackPfn := call.osStackPfn
      regs := { current.regs with
        entryCs := 0x23
        entrySs := 0x2b
        entryRflags := call.stack 2
        entryRip := call.thFunc
        entryRsp := call.userStack
        rbp := call.userStack }
      state := .ready })

/-- `do_signal`, for a valid signal number. -/
def doSignal (signo : Signal) (handler : Word) (k : Kernel) : Outcome :=
  .ret (k.modify k.current fun c =>
    { c with sighandlers := Function.update c.sighandlers signo handler })

/-- `do_alarm`. -/
def doAlarm (ticks : BitVec 32) (k : Kernel) : Outcome :=
  .ret (k.modify k.current fun c => { c with alarmConfigTime := ticks, ticksToAlarm := ticks })

end Cloning

section Events

/-- A timer interrupt, or a system call of the current process; with what the handler finds in
the registers and on its stack. -/
inductive Event
  | tick (regs : UserRegs)
  | exit (t2 : Frame) (cpu : Regs)
  | sleep (ticks : BitVec 32) (stack : ℕ → Word) (cpu : Regs)
  | clone (call : CloneCall)
  | alarm (ticks : BitVec 32)
  | signal (signo : Signal) (handler : Word)

/-- System calls come from user processes. -/
def Event.FromUser (k : Kernel) : Event → Prop
  | tick _ => True
  | exit _ _ | sleep _ _ _ | clone _ | alarm _ | signal _ _ => k.current ≠ 0

instance (k : Kernel) : (e : Event) → Decidable (e.FromUser k)
  | .tick _ => inferInstanceAs (Decidable True)
  | .exit _ _ | .sleep _ _ _ | .clone _ | .alarm _ | .signal _ _ =>
    inferInstanceAs (Decidable (_ ≠ _))

/-- `get_new_ctx` returns a user context that is not in use. -/
def Event.Fresh (k : Kernel) : Event → Prop
  | clone call => call.pid ≠ 0 ∧ (k.ctxs call.pid).state = .unused
  | tick _ | exit _ _ | sleep _ _ _ | alarm _ | signal _ _ => True

instance (k : Kernel) : (e : Event) → Decidable (e.Fresh k)
  | .clone _ => inferInstanceAs (Decidable (_ ∧ _))
  | .tick _ | .exit _ _ | .sleep _ _ _ | .alarm _ | .signal _ _ => inferInstanceAs (Decidable True)

/-- The events that can happen. -/
def Event.Valid (k : Kernel) (e : Event) : Prop := e.FromUser k ∧ e.Fresh k

instance (k : Kernel) (e : Event) : Decidable (e.Valid k) := inferInstanceAs (Decidable (_ ∧ _))

def handle (k : Kernel) : Event → Outcome
  | .tick regs => handleTimerTick regs k
  | .exit t2 cpu => doExit t2 cpu k
  | .sleep ticks stack cpu => doSleep ticks stack cpu k
  | .clone call => doClone call k
  | .alarm ticks => doAlarm ticks k
  | .signal signo handler => doSignal signo handler k

/-- The state that a handler leaves. -/
def Outcome.kernel : Outcome → Kernel
  | cleanup k | iretq k _ | ret k => k

/-- The next state, unless the event shuts the system down, and the registers after an
`iretq`. -/
def Outcome.next : Outcome → Option (Kernel × Option (Abi → UserRegs))
  | cleanup _ => none
  | iretq k regs => some (k, some regs)
  | ret k => some (k, none)

def step (k : Kernel) (e : Event) : Option (Kernel × Option (Abi → UserRegs)) :=
  (handle k e).next

end Events

end OsAssignments.Scheduler
