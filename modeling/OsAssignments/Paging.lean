import OsAssignments.RadixTree

/-!
# Demand paging

The page-fault handler and the requests that grow and shrink the data segments of
one process. A four-level table in the frames of physical memory maps its pages;
the handler enters a page on the first access to it, and SHRINK takes pages out.
The frame allocator is not part of the sources and is a parameter.
-/
namespace OsAssignments.Paging

/-- The type `u64`. -/
abbrev Word := BitVec 64

/-- The type `u32` of frame numbers. -/
abbrev Frame := BitVec 32

/-- The place of a word in its frame. -/
abbrev Index := BitVec 9

/-- Physical memory, as `osmap` shows it: the 512 words of each frame. -/
abbrev Memory := Frame → Index → Word

/-- The segments of a process, `MM_SEG_CODE` to `MM_SEG_STACK`. -/
inductive MmSeg
  | code | rodata | data | stack
  deriving DecidableEq, Repr

/-- `struct mm_segment`; its member `end` is `limit` here. -/
structure MmSegment where
  start : Word
  limit : Word
  nextFree : Word
  accessFlags : BitVec 32

/-- `MM_WR`, the bit of `access_flags` for writing. -/
def mmWr : BitVec 32 := 2

/-- The members of `struct exec_context` that paging uses. -/
structure ExecContext where
  pgd : Frame
  mms : MmSeg → MmSegment

/-- The regions that frames are handed out from. -/
inductive Region
  | osDs | osPt | user
  deriving DecidableEq, Repr

/-- The frame allocator: the frame it hands out next, if it has one, what it leaves in that
frame, and the frames it counts as allocated. -/
structure Allocator (α : Type) where
  alloc : Region → α → Option (Frame × α)
  free : Region → Frame → α → α
  fill : Region → (Index → Word) → Index → Word
  allocated : α → Frame → Prop

/-- The machine as seen by one process. -/
structure Kernel (α : Type) where
  mem : Memory
  frames : α
  ctx : ExecContext

variable {α : Type} (A : Allocator α)

section Entries

/-- The test `*address & 1`. -/
def Present (w : Word) : Prop := w &&& 1 ≠ 0

instance : DecidablePred Present := fun w => inferInstanceAs (Decidable (w &&& 1 ≠ 0))

/-- The frame number in an entry, `*address >> 12`. -/
def pfn (w : Word) : Frame := (w >>> 12).setWidth 32

/-- The index at one level of the walk, `(address >> n) & 511`. -/
def shift (address : Word) (n : ℕ) : Index := ((address >>> n) &&& 511).setWidth 9

/-- The bits of an entry for a segment, `(access_flags & 2) | 5`. -/
def accessCode (flags : BitVec 32) : Word := ((flags &&& 2) ||| 5).setWidth 64

/-- A new entry, `access_code + (frame << 12)`; the shift is one of a `u32`. -/
def entryFor (code : Word) (frame : Frame) : Word := code + (frame <<< 12).setWidth 64

end Entries

section Machine

/-- The machine once the allocator has handed out a frame. -/
def Kernel.receive (k : Kernel α) (region : Region) (frame : Frame) (frames : α) : Kernel α :=
  { k with mem := Function.update k.mem frame (A.fill region (k.mem frame)), frames }

def osPfnAlloc (region : Region) (k : Kernel α) : Option (Frame × Kernel α) :=
  (A.alloc region k.frames).map fun (frame, frames) => (frame, k.receive A region frame frames)

def osPfnFree (region : Region) (frame : Frame) (k : Kernel α) : Kernel α :=
  { k with frames := A.free region frame k.frames }

/-- `*address = w`, for the word `i` of a frame. -/
def Kernel.store (k : Kernel α) (frame : Frame) (i : Index) (w : Word) : Kernel α :=
  { k with mem := Function.update k.mem frame (Function.update (k.mem frame) i w) }

end Machine

section Walks

/-- `isvalid`: 1 when the page of an address is present at all four levels, else -1. -/
def isvalid (mem : Memory) (address : Word) (frame : Frame) : ℤ :=
  if Present (mem frame (shift address 39)) then
    let frame := pfn (mem frame (shift address 39))
    if Present (mem frame (shift address 30)) then
      let frame := pfn (mem frame (shift address 30))
      if Present (mem frame (shift address 21)) then
        let frame := pfn (mem frame (shift address 21))
        if Present (mem frame (shift address 12)) then 1 else -1
      else -1
    else -1
  else -1

/-- `free1`: give back the frame of a page and clear its last entry. -/
def free1 (address : Word) (frame : Frame) (k : Kernel α) : Kernel α :=
  if Present (k.mem frame (shift address 39)) then
    let frame := pfn (k.mem frame (shift address 39))
    if Present (k.mem frame (shift address 30)) then
      let frame := pfn (k.mem frame (shift address 30))
      if Present (k.mem frame (shift address 21)) then
        let frame := pfn (k.mem frame (shift address 21))
        if Present (k.mem frame (shift address 12)) then
          (osPfnFree A .user (pfn (k.mem frame (shift address 12))) k).store frame
            (shift address 12) 0
        else k
      else k
    else k
  else k

/-- One level of the fault handler's walk: the table behind an entry, whose access bits are
added to, or a new table, which the entry then names. -/
def descend (code : Word) (i : Index) (frame : Frame) (k : Kernel α) :
    Option (Frame × Kernel α) :=
  let table := if Present (k.mem frame i) then
      some (pfn (k.mem frame i), k.store frame i (k.mem frame i ||| code))
    else osPfnAlloc A .osPt k
  table.map fun (table, k) =>
    (table, if Present (k.mem frame i) then k else k.store frame i (entryFor code table))

/-- The body of a branch of `handle_page_fault`: three levels of tables, then the page. -/
def mapPage (segment : MmSeg) (rip : Word) (k : Kernel α) : Option (Kernel α) :=
  let code := accessCode (k.ctx.mms segment).accessFlags
  (descend A code (shift rip 39) k.ctx.pgd k).bind fun (frame, k) =>
  (descend A code (shift rip 30) frame k).bind fun (frame, k) =>
  (descend A code (shift rip 21) frame k).bind fun (frame, k) =>
  (osPfnAlloc A .user k).map fun (page, k) =>
    k.store frame (shift rip 12) (entryFor code page)

/-- `handle_page_fault`; the last branch is `do_exit`, which does not return. -/
def handlePageFault (rip errorCode : Word) (k : Kernel α) : Option (Kernel α) :=
  let data := k.ctx.mms .data
  let rodata := k.ctx.mms .rodata
  let stack := k.ctx.mms .stack
  if data.start ≤ rip ∧ rip < data.nextFree ∧ errorCode &&& 1 = 0 then
    mapPage A .data rip k
  else if rodata.start ≤ rip ∧ rip < rodata.nextFree ∧ errorCode &&& 2 = 0 ∧
      errorCode &&& 1 = 0 then
    mapPage A .rodata rip k
  else if stack.start ≤ rip ∧ rip < stack.limit ∧ errorCode &&& 1 = 0 then
    mapPage A .stack rip k
  else none

end Walks

section Requests

/-- `MAP_RD`. -/
def mapRd : Word := 0

/-- The segment a request is about: RODATA for `MAP_RD`, else DATA. -/
def requested (flag : Word) : MmSeg := if flag = mapRd then .rodata else .data

def Kernel.setNextFree (k : Kernel α) (segment : MmSeg) (w : Word) : Kernel α :=
  let grown : MmSegment := { k.ctx.mms segment with nextFree := w }
  { k with ctx.mms := Function.update k.ctx.mms segment grown }

/-- `SYSCALL_EXPAND`; the reply is the old `next_free`, and `none` for `NULL`. -/
def sysExpand (param1 param2 : Word) (k : Kernel α) : Kernel α × Option Word :=
  let var := requested param2
  let param1 := param1 * 4096
  let start := (k.ctx.mms var).nextFree
  if (k.ctx.mms var).limit < start + param1 then (k, none)
  else (k.setNextFree var ((k.ctx.mms var).nextFree + param1), some start)

/-- The loop of `SYSCALL_SHRINK` over the pages given back. -/
def freePages (curr : Word) (pgd : Frame) (n : ℕ) (k : Kernel α) : Kernel α :=
  (List.range n).foldl
    (fun k i => free1 A (curr - 4096 * (BitVec.ofNat 64 i + 1)) pgd k) k

/-- `SYSCALL_SHRINK`; the reply is the new `next_free`, and `none` for `NULL`. -/
def sysShrink (param1 param2 : Word) (k : Kernel α) : Kernel α × Option Word :=
  let var := requested param2
  let curr := (k.ctx.mms var).nextFree
  let start := (k.ctx.mms var).start
  if curr - param1 * 4096 < start then (k, none)
  else
    let k := freePages A curr k.ctx.pgd param1.toNat k
    (k.setNextFree var ((k.ctx.mms var).nextFree - param1 * 4096),
      some ((k.ctx.mms var).nextFree - param1 * 4096))

end Requests

section UserMode

/-- The table or page behind an entry that has all the needed bits. -/
def links (need : Word) (mem : Memory) (frame : Frame) (i : Index) : Option Frame :=
  if mem frame i &&& need = need then some (pfn (mem frame i)) else none

/-- The indices of an address, from the top table down. -/
def path (address : Word) : List Index :=
  [shift address 39, shift address 30, shift address 21, shift address 12]

/-- The page the hardware finds for an access that needs some bits at every level. -/
def translate (need : Word) (mem : Memory) (pgd : Frame) (address : Word) : Option Frame :=
  RadixTree.follow (links need mem) pgd (path address)

/-- A byte read in user mode: the page is present and open to the user at every level. -/
def userLoad (k : Kernel α) (address : Word) : Option (BitVec 8) :=
  (translate 5 k.mem k.ctx.pgd address).map fun page =>
    (k.mem page (shift address 3)).extractLsb' (8 * (address &&& 7).toNat) 8

/-- The word with one of its bytes replaced. -/
def setByte (w : Word) (j : ℕ) (byte : BitVec 8) : Word :=
  (w &&& ~~~((255 : Word) <<< (8 * j))) ||| (byte.setWidth 64 <<< (8 * j))

/-- A byte stored in user mode, where that is allowed; elsewhere the store only faults. -/
def userStore (address : Word) (byte : BitVec 8) (k : Kernel α) : Kernel α :=
  match translate 7 k.mem k.ctx.pgd address with
  | none => k
  | some page => k.store page (shift address 3)
      (setByte (k.mem page (shift address 3)) (address &&& 7).toNat byte)

end UserMode

section Runs

/-- What happens to the machine from the outside. -/
inductive Event
  | fault (rip errorCode : Word)
  | expand (n flag : Word)
  | shrink (n flag : Word)
  | store (address : Word) (byte : BitVec 8)

/-- One event; the reply is that of the request, if it is one. -/
def exec (k : Kernel α) : Event → Option (Kernel α × Option Word)
  | .fault rip errorCode => (handlePageFault A rip errorCode k).map fun k => (k, none)
  | .expand n flag => some (sysExpand n flag k)
  | .shrink n flag => some (sysShrink A n flag k)
  | .store address byte => some (userStore address byte k, none)

end Runs

end OsAssignments.Paging
