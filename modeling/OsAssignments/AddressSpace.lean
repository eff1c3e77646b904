import OsAssignments.Paging

/-!
# Address spaces of new processes

The two programs that set up and tear down the page table of a process: three pages,
of code, stack and data, behind one four-level table. `context_mm.c` spells the walks
out, `actual.c` has a loop over the three pages. The frame allocator is not part of
the sources; its replies are a parameter, and its calls are recorded.
-/
namespace OsAssignments.AddressSpace

open Paging (Word Frame Index Memory Region MmSeg Present pfn shift)

/-- `struct mm_segment`; its member `end` is `limit` here. -/
structure MmSegment where
  start : Word
  limit : Word
  accessFlags : BitVec 32

/-- The members of `struct exec_context` that the two programs use. -/
structure ExecContext where
  pgd : Frame
  mms : MmSeg → MmSegment
  argPfn : Frame

/-- Physical memory, with the frames handed out and given back so far. -/
structure State where
  mem : Memory
  taken : List (Region × Frame)
  freed : List (Region × Frame)

variable (frames : ℕ → Frame)

section Memory

/-- `os_pfn_alloc`: the reply to the call number `n` is `frames n`. -/
def osPfnAlloc (region : Region) (s : State) : Frame × State :=
  (frames s.taken.length, { s with taken := s.taken ++ [(region, frames s.taken.length)] })

def osPfnFree (region : Region) (frame : Frame) (s : State) : State :=
  { s with freed := s.freed ++ [(region, frame)] }

/-- `*address = w`, for the word `i` of a frame. -/
def State.store (s : State) (frame : Frame) (i : Index) (w : Word) : State :=
  { s with mem := Function.update s.mem frame (Function.update (s.mem frame) i w) }

/-- The first `n` words of a frame are set to 0, one after the other. -/
@[irreducible] def State.zeroWords (s : State) (frame : Frame) (n : ℕ) : State :=
  (List.range n).foldl (fun s i => s.store frame (BitVec.ofNat 9 i) 0) s

end Memory

namespace ContextMm

/-- `reset`. -/
def reset (addr : Frame) (s : State) : State := s.zeroWords addr 512

/-- The index at one level of the walk, `(vaddr & mask) >> n`. -/
def pdeIndex (mask : Word) (n : ℕ) (vaddr : Word) : Index := ((vaddr &&& mask) >>> n).setWidth 9

def indexL4 : Word → Index := pdeIndex 0x0000FF8000000000 39
def indexL3 : Word → Index := pdeIndex 0x0000007FC0000000 30
def indexL2 : Word → Index := pdeIndex 0x000000003FE00000 21
def indexL1 : Word → Index := pdeIndex 0x00000000001FF000 12

def vaddrStack (ctx : ExecContext) : Word := (ctx.mms .stack).limit - 0x1000
def vaddrData (ctx : ExecContext) : Word := (ctx.mms .data).start
def vaddrCode (ctx : ExecContext) : Word := (ctx.mms .code).start

/-- The access flag of a segment, 2 when it may be written. -/
def accessFlag (flags : BitVec 32) : Word := if flags &&& 2 ≠ 0 then 2 else 0

/-- A new entry, `(frame << pte_shift) | 5 | access_flag`; the shift is one of a `u32`. -/
def pte (frame : Frame) (flag : Word) : Word := ((frame <<< 12) ||| 5).setWidth 64 ||| flag

/-- One level of the walk for stack or data: the table behind an entry, which gets the bits
`more`, or a new table. -/
def level (more flag : Word) (i : Index) (frame : Frame) (s : State) : Frame × State :=
  if s.mem frame i &&& 1 = 1 then
    (pfn (s.mem frame i), s.store frame i (s.mem frame i ||| more))
  else
    let (table, s) := osPfnAlloc frames .osPt s
    (table, (reset table s).store frame i (pte table flag))

/-- The page of code; the table is empty so far. -/
def mapCode (l4 : Frame) (vaddr flag : Word) (s : State) : State :=
  let (l3, s) := osPfnAlloc frames .osPt s
  let s := (reset l3 s).store l4 (indexL4 vaddr) (pte l3 flag)
  let (l2, s) := osPfnAlloc frames .osPt s
  let s := (reset l2 s).store l3 (indexL3 vaddr) (pte l2 flag)
  let (l1, s) := osPfnAlloc frames .osPt s
  -- the source resets `l2` a second time here, and never `l1`
  let s := (reset l2 s).store l2 (indexL2 vaddr) (pte l1 flag)
  let (page, s) := osPfnAlloc frames .user s
  (reset page s).store l1 (indexL1 vaddr) (pte page flag)

def mapStack (l4 : Frame) (vaddr flag : Word) (s : State) : State :=
  let (l3, s) := level frames flag flag (indexL4 vaddr) l4 s
  let (l2, s) := level frames flag flag (indexL3 vaddr) l3 s
  let (l1, s) := level frames flag flag (indexL2 vaddr) l2 s
  let (page, s) := osPfnAlloc frames .user s
  (reset page s).store l1 (indexL1 vaddr) (pte page flag)

/-- The page of data; the source adds to an entry of the top table only its own bits. -/
def mapData (l4 : Frame) (vaddr flag : Word) (argPfn : Frame) (s : State) : State :=
  let (l3, s) := level frames (s.mem l4 (indexL4 vaddr)) flag (indexL4 vaddr) l4 s
  let (l2, s) := level frames flag flag (indexL3 vaddr) l3 s
  let (l1, s) := level frames flag flag (indexL2 vaddr) l2 s
  s.store l1 (indexL1 vaddr) (pte argPfn flag)

def prepareContextMm (ctx : ExecContext) (s : State) : ExecContext × State :=
  let (l4, s) := osPfnAlloc frames .osPt s
  let ctx := { ctx with pgd := l4 }
  let s := reset l4 s
  let s := mapCode frames l4 (vaddrCode ctx) (accessFlag (ctx.mms .code).accessFlags) s
  let s := mapStack frames l4 (vaddrStack ctx) (accessFlag (ctx.mms .stack).accessFlags) s
  let s := mapData frames l4 (vaddrData ctx) (accessFlag (ctx.mms .data).accessFlags) ctx.argPfn s
  (ctx, s)

/-- The frame number in an entry, `(*temp >> pte_shift) & 0xFFFFFFFF`. -/
def entryPfn (w : Word) : Frame := ((w >>> 12) &&& 0xFFFFFFFF).setWidth 32

/-- The three tables on the way to a page, and the page: `pfn_code`, `pfn_stack`, `pfn_data`. -/
def pfns (mem : Memory) (l4 : Frame) (vaddr : Word) : Fin 4 → Frame :=
  let l3 := entryPfn (mem l4 (indexL4 vaddr))
  let l2 := entryPfn (mem l3 (indexL3 vaddr))
  let l1 := entryPfn (mem l2 (indexL2 vaddr))
  ![l3, l2, l1, entryPfn (mem l1 (indexL1 vaddr))]

/-- `Max_N`. -/
def maxN : ℕ := 9

/-- `array[n++] = frame`, for an array of `size` elements. -/
def push (size : ℕ) (array : List Frame) (frame : Frame) : Option (List Frame) :=
  if array.length < size then some (array ++ [frame]) else none

/-- One round of the check for duplicates. -/
def gather (size : ℕ) (code stack data : Frame) (array : List Frame) : Option (List Frame) :=
  if code ≠ stack then do
    let array ← push size array code
    let array ← push size array stack
    if data ≠ stack ∧ data ≠ code then push size array data else return array
  else do
    let array ← push size array code
    if data ≠ code then push size array data else return array

/-- `cleanup_context_mm`; it has no result when it stores outside its arrays. -/
def cleanupContextMm (ctx : ExecContext) (s : State) : Option State := do
  let pfnCode := pfns s.mem ctx.pgd (vaddrCode ctx)
  let pfnStack := pfns s.mem ctx.pgd (vaddrStack ctx)
  let pfnData := pfns s.mem ctx.pgd (vaddrData ctx)
  let pfnOs ← [0, 1, 2].foldlM
    (fun array i => gather maxN (pfnCode i) (pfnStack i) (pfnData i) array) []
  let pfnOs ← push maxN pfnOs ctx.pgd
  let pfnUsr ← gather 3 (pfnCode 3) (pfnStack 3) (pfnData 3) []
  let s := pfnUsr.foldl (fun s frame => osPfnFree .user frame s) s
  return pfnOs.foldl (fun s frame => osPfnFree .osPt frame s) s

end ContextMm

namespace Actual

/-- `clean`. -/
def clean (frame : Frame) (s : State) : State := s.zeroWords frame 512

/-- The address of a page, by the number of the round. -/
def startAddress (ctx : ExecContext) (i : ℕ) : Word :=
  if i = 1 then (ctx.mms .code).start
  else if i = 0 then (ctx.mms .stack).limit - 0x1000
  else (ctx.mms .data).start

def accessCode (ctx : ExecContext) (i : ℕ) : BitVec 32 :=
  if i = 1 then (ctx.mms .code).accessFlags
  else if i = 0 then (ctx.mms .stack).accessFlags
  else (ctx.mms .data).accessFlags

/-- `level4val` to `level1val`: 0, then `^= 5`, perhaps `^= 2`, and `+= frame << 12`. -/
def levelVal (accessCode : BitVec 32) (frame : Frame) : Word :=
  let val : Word := 0 ^^^ 5
  let val := if accessCode &&& 2 ≠ 0 then val ^^^ 2 else val
  val + (frame <<< 12).setWidth 64

/-- One level of the walk; the entry is tested before and after a table is made. -/
def level (accessCode : BitVec 32) (i : Index) (frame : Frame) (s : State) : Frame × State :=
  let (next, s) :=
    if Present (s.mem frame i) then
      (pfn (s.mem frame i),
        if accessCode &&& 2 ≠ 0 then s.store frame i (s.mem frame i ||| 7) else s)
    else
      let (next, s) := osPfnAlloc frames .osPt s
      (next, clean next s)
  (next, if Present (s.mem frame i) then s else s.store frame i (levelVal accessCode next))

/-- One round of the loop of `prepare_context_mm`. -/
def prepareRound (ctx : ExecContext) (level4frame : Frame) (s : State) (i : ℕ) : State :=
  let address := startAddress ctx i
  let code := accessCode ctx i
  let (level3frame, s) := level frames code (shift address 39) level4frame s
  let (level2frame, s) := level frames code (shift address 30) level3frame s
  let (level1frame, s) := level frames code (shift address 21) level2frame s
  if Present (s.mem level1frame (shift address 12)) then s
  else if i ≠ 2 then
    let (level0frame, s) := osPfnAlloc frames .user s
    s.store level1frame (shift address 12) (levelVal code level0frame)
  else s.store level1frame (shift address 12) (levelVal code ctx.argPfn)

def prepareContextMm (ctx : ExecContext) (s : State) : ExecContext × State :=
  let (level4frame, s) := osPfnAlloc frames .osPt s
  let ctx := { ctx with pgd := level4frame }
  (ctx, (List.range 3).foldl (prepareRound frames ctx level4frame) (clean level4frame s))

/-- The entries and frames that the first loop of `cleanup_context_mm` finds for a page: the
tables `lev3frame`, `lev2frame` and `lev1frame`, the page, and the indices of the entries. -/
structure Found where
  lev3frame : Frame
  lev2frame : Frame
  lev1frame : Frame
  level0frame : Frame
  address : Word

def find (mem : Memory) (level4frame : Frame) (address : Word) : Found :=
  let level3frame := pfn (mem level4frame (shift address 39))
  let level2frame := pfn (mem level3frame (shift address 30))
  let level1frame := pfn (mem level2frame (shift address 21))
  ⟨level3frame, level2frame, level1frame, pfn (mem level1frame (shift address 12)), address⟩

/-- The address of a page in `cleanup_context_mm`, where code comes first. -/
def cleanupAddress (ctx : ExecContext) (i : Fin 3) : Word :=
  if i = 0 then (ctx.mms .code).start
  else if i = 1 then (ctx.mms .stack).limit - 0x1000
  else (ctx.mms .data).start

/-- The four entries on the way to a page are cleared. -/
def clearEntries (level4frame : Frame) (found : Found) (s : State) : State :=
  (((s.store found.lev1frame (shift found.address 12) 0).store
    found.lev2frame (shift found.address 21) 0).store
    found.lev3frame (shift found.address 30) 0).store level4frame (shift found.address 39) 0

/-- The inner loop over `j`: later occurrences of a frame are set to 0. -/
def forget (lev : Fin 3 → Frame) (i : Fin 3) : Fin 3 → Frame :=
  ((List.finRange 3).filter (i < ·)).foldl
    (fun lev j => if lev j = lev i then Function.update lev j 0 else lev) lev

/-- One round of a loop that gives back the tables of one level. -/
def freeRound (x : (Fin 3 → Frame) × State) (i : Fin 3) : (Fin 3 → Frame) × State :=
  if x.1 i = 0 then x else (forget x.1 i, osPfnFree .osPt (x.1 i) x.2)

def freeLevel (lev : Fin 3 → Frame) (s : State) : State :=
  ((List.finRange 3).foldl freeRound (lev, s)).2

def cleanupContextMm (ctx : ExecContext) (s : State) : State :=
  let found := fun i => find s.mem ctx.pgd (cleanupAddress ctx i)
  let s := (List.finRange 3).foldl (fun s i => osPfnFree .user (found i).level0frame s) s
  -- the loop over the last tables also clears the entries
  let s := ((List.finRange 3).foldl
    (fun x i => freeRound (x.1, clearEntries ctx.pgd (found i) x.2) i)
    (fun i => (found i).lev1frame, s)).2
  let s := freeLevel (fun i => (found i).lev2frame) s
  let s := freeLevel (fun i => (found i).lev3frame) s
  osPfnFree .osPt ctx.pgd s

end Actual

end OsAssignments.AddressSpace
