import OsAssignments.PageFaults
import OsAssignments.WriteCall

/-!
# A process and its kernel

The process loads and stores bytes, divides and calls the kernel. An access that the
hardware turns down raises a fault and is tried again once the handler has returned;
`do_exit` ends the process.
-/
namespace OsAssignments.Processes

open Paging RadixTree PagingInvariant PageFaults WriteCall

variable {α : Type} {A : Allocator α} {k k' : Kernel α} {address : Word} {write : Bool}
variable {fuel : ℕ}

section Hardware

/-- The bits an access in user mode needs at every level. -/
def needed (write : Bool) : Word := if write then 7 else 5

/-- The error code of a fault in user mode: bit 0 for a page that is present, bit 1 for a
store. -/
def faultCode (k : Kernel α) (write : Bool) (address : Word) : Word :=
  (if (translate 1 k.mem k.ctx.pgd address).isSome then 1 else 0) |||
    (if write then 2 else 0) ||| 4

instance (flags : BitVec 32) : Decidable (MayWrite flags) :=
  inferInstanceAs (Decidable (flags &&& mmWr ≠ 0))

/-- The byte of an address in its page. -/
def byteIn (mem : Paging.Memory) (page : Frame) (address : Word) : BitVec 8 :=
  (mem page (shift address 3)).extractLsb' (8 * (address &&& 7).toNat) 8

/-- A byte that the kernel reads through the table of the process. -/
def kernelLoad (k : Kernel α) (address : Word) : Option (BitVec 8) :=
  if Canonical address then
    (translate 1 k.mem k.ctx.pgd address).map fun page => byteIn k.mem page address
  else none

/-- The tries of one access, each after the first behind a fault. -/
def access (A : Allocator α) (write : Bool) (address : Word) :
    ℕ → Kernel α → Option (Ending α)
  | 0, _ => none
  | fuel + 1, k =>
    match translate (needed write) k.mem k.ctx.pgd address with
    | some _ => some (.iretq k)
    | none => (pageFault A address (faultCode k write address) k).bind fun
      | .iretq k => access A write address fuel k
      | .doExit k => some (.doExit k)

end Hardware

section Calls

/-- `SYSCALL_EXIT` to `SYSCALL_SHRINK`. -/
def syscallExit : BitVec 32 := 1
def syscallGetpid : BitVec 32 := 2
def syscallWrite : BitVec 32 := 3
def syscallExpand : BitVec 32 := 4
def syscallShrink : BitVec 32 := 5

/-- A process runs or is gone. -/
inductive Process (α : Type)
  | running (k : Kernel α)
  | exited (k : Kernel α)

/-- The machine, also of a process that is gone. -/
def Process.kernel : Process α → Kernel α
  | .running k => k
  | .exited k => k

/-- What a process sees of an instruction, with the bytes that were printed for it. -/
inductive Response
  | byte (b : BitVec 8)
  | stored
  | returned (value : Word) (printed : List (BitVec 8))
  | gone
  deriving DecidableEq

/-- `do_syscall` for the process with this `id`; without a result the kernel reads an address
that is not mapped. -/
def doSyscall (A : Allocator α) (id syscall : BitVec 32) (param1 param2 : Word) (k : Kernel α) :
    Option (Process α × Response) :=
  if syscall = syscallExit then some (.exited k, .gone)
  else if syscall = syscallGetpid then some (.running k, .returned (id.setWidth 64) [])
  else if syscall = syscallWrite then
    ((sysWrite k param1 param2).2.mapM (kernelLoad k)).map fun printed =>
      (.running k, .returned (BitVec.ofInt 64 (sysWrite k param1 param2).1) printed)
  else if syscall = syscallExpand then
    some (.running (sysExpand param1 param2 k).1,
      .returned ((sysExpand param1 param2 k).2.getD 0) [])
  else if syscall = syscallShrink then
    some (.running (sysShrink A param1 param2 k).1,
      .returned ((sysShrink A param1 param2 k).2.getD 0) [])
  else some (.running k, .returned (-1) [])

/-- `handle_div_by_zero`. -/
def handleDivByZero (k : Kernel α) : Process α × Response := (.exited k, .gone)

end Calls

section Instructions

/-- The instructions of a process that the kernel has a part in. -/
inductive Instr
  | load (address : Word)
  | store (address : Word) (byte : BitVec 8)
  | divByZero
  | syscall (n : BitVec 32) (param1 param2 : Word)

/-- The machine at the end of an access. -/
def ended : Ending α → Kernel α
  | .iretq k => k
  | .doExit k => k

/-- The process goes on after an access, if the handler did not end it. -/
def resume (f : Kernel α → Option (Process α × Response)) : Ending α → Option (Process α × Response)
  | .iretq k => f k
  | .doExit k => some (.exited k, .gone)

/-- One instruction of a process that runs. An address that is not canonical raises another
exception, whose handler is not part of the sources. -/
def execute (A : Allocator α) (id : BitVec 32) (fuel : ℕ) (k : Kernel α) :
    Instr → Option (Process α × Response)
  | .load a =>
    if Canonical a then (access A false a fuel k).bind <|
      resume fun k => (userLoad k a).map fun b => (.running k, .byte b)
    else none
  | .store a b =>
    if Canonical a then (access A true a fuel k).bind <|
      resume fun k => some (.running (userStore a b k), .stored)
    else none
  | .divByZero => some (handleDivByZero k)
  | .syscall n param1 param2 => doSyscall A id n param1 param2 k

/-- One instruction; nothing is executed for a process that is gone. -/
def step (A : Allocator α) (id : BitVec 32) (fuel : ℕ) :
    Process α → Instr → Option (Process α × Response)
  | .running k, i => execute A id fuel k i
  | .exited k, _ => some (.exited k, .gone)

end Instructions

section Tries

/-- How the access ends behind a fault that entered its page. -/
def entered (write : Bool) (flags : BitVec 32) (k : Kernel α) : Ending α :=
  if write = true ∧ ¬MayWrite flags then .doExit k else .iretq k

/-- How an access ends, with one fault at most. -/
def settle (A : Allocator α) (write : Bool) (address : Word) (k : Kernel α) :
    Option (Ending α) :=
  if (translate (needed write) k.mem k.ctx.pgd address).isSome then some (.iretq k)
  else match accepting k.ctx address (faultCode k write address) with
    | none => some (.doExit k)
    | some s => (mapPage A s address k).map (entered write (k.ctx.mms s).accessFlags)

variable {need w errorCode : Word} {page r : Frame} {q : List Index} {s : MmSeg}

/-- An access follows the entries that are present and have the bits it needs. -/
lemma follow_links_iff (hneed : need &&& 1 = 1) : follow (links need k.mem) r q = some page ↔
    follow k.tree r q = some page ∧
      AllAlong (fun f i => k.mem f i &&& need = need) k.tree r q := by
  induction q generalizing r with
  | nil => simp [follow, AllAlong]
  | cons i q ih =>
    by_cases hbits : k.mem r i &&& need = need
    · have hlink : links need k.mem r i = some (pfn (k.mem r i)) := if_pos hbits
      have hpres : Present (k.mem r i) := by
        by_contra hnone
        rw [links_of_not_present hneed hnone] at hlink
        cases hlink
      simp [follow, AllAlong, hlink, tree_of_present hpres, hbits, ih]
    · have hlink : links need k.mem r i = none := if_neg hbits
      simp [follow, AllAlong, hlink, hbits]

lemma translate_open_iff : translate 5 k.mem k.ctx.pgd address = some page ↔
    k.lookup (path address) = some page ∧ OpenAlong k (path address) :=
  follow_links_iff (by decide)

lemma seven_iff : w &&& 7 = 7 ↔ Open w ∧ Writable w := by
  have htwo : (2 : Word) = BitVec.twoPow 64 1 := rfl
  have hseven : (7 : Word) = 5 ||| 2 := by decide
  have hfive : (7 : Word) &&& 5 = 5 := by decide
  have hmask : (7 : Word) &&& 2 = 2 := by decide
  constructor
  · intro h
    refine ⟨?_, ?_⟩
    · rw [Open, ← hfive, ← BitVec.and_assoc, h]
    · rw [Writable, ← hmask, ← BitVec.and_assoc, h]
      decide
  · rintro ⟨hopen, hw⟩
    have hand : w &&& 2 = 2 := by
      rw [Writable, htwo, BitVec.and_twoPow] at hw
      rw [htwo, BitVec.and_twoPow]
      split_ifs at hw ⊢ with hbit
      · rfl
      · exact absurd rfl hw
    rw [hseven, BitVec.and_or_distrib_left, hand, hopen]

/-- A byte may be stored where it may be read and every entry is writable. -/
lemma translate_writable_iff : translate 7 k.mem k.ctx.pgd address = some page ↔
    translate 5 k.mem k.ctx.pgd address = some page ∧ k.WriteAlong (path address) := by
  rw [translate_open_iff, Paging.translate, follow_links_iff (by decide), OpenAlong,
    Kernel.WriteAlong, and_assoc, ← allAlong_and]
  simp only [seven_iff]
  rfl

/-- A fault for a page that is present is not accepted. -/
lemma lookup_of_accepting (h : accepting k.ctx address (faultCode k write address) = some s) :
    k.lookup (path address) = none := by
  by_contra hne
  have hsome : (translate 1 k.mem k.ctx.pgd address).isSome = true :=
    Option.isSome_iff_ne_none.mpr hne
  have hcode : ¬faultCode k write address &&& 1 = 0 := by
    rw [faultCode, if_pos hsome]
    cases write <;> decide
  simp only [accepting, hcode, and_false, if_false] at h
  cases h

/-- An access to a page that is present and refused ends the process. -/
lemma accepting_of_present (hpage : (translate 1 k.mem k.ctx.pgd address).isSome) :
    accepting k.ctx address (faultCode k write address) = none := by
  cases h : accepting k.ctx address (faultCode k write address) with
  | none => rfl
  | some s =>
    have hnone : translate 1 k.mem k.ctx.pgd address = none := lookup_of_accepting h
    rw [hnone] at hpage
    cases hpage

lemma access_of_hit (h : (translate (needed write) k.mem k.ctx.pgd address).isSome) :
    access A write address (fuel + 1) k = some (.iretq k) := by
  obtain ⟨page, htr⟩ := Option.isSome_iff_exists.mp h
  simp only [access, htr]

lemma access_of_refused (htr : translate (needed write) k.mem k.ctx.pgd address = none)
    (hacc : accepting k.ctx address (faultCode k write address) = none) :
    access A write address (fuel + 1) k = some (.doExit k) := by
  simp only [access, htr, pageFault, hacc, Option.bind_some]

lemma access_of_fault (htr : translate (needed write) k.mem k.ctx.pgd address = none)
    (hacc : accepting k.ctx address (faultCode k write address) = some s) :
    access A write address (fuel + 1) k =
      (mapPage A s address k).bind (access A write address fuel) := by
  simp only [access, htr, pageFault, hacc, Option.bind_map]
  rfl

lemma settle_of_hit (h : (translate (needed write) k.mem k.ctx.pgd address).isSome) :
    settle A write address k = some (.iretq k) := if_pos h

lemma settle_of_refused (htr : translate (needed write) k.mem k.ctx.pgd address = none)
    (hacc : accepting k.ctx address (faultCode k write address) = none) :
    settle A write address k = some (.doExit k) := by
  simp [settle, htr, hacc]

lemma settle_of_fault (htr : translate (needed write) k.mem k.ctx.pgd address = none)
    (hacc : accepting k.ctx address (faultCode k write address) = some s) :
    settle A write address k =
      (mapPage A s address k).map (entered write (k.ctx.mms s).accessFlags) := by
  simp [settle, htr, hacc]

section Entered

variable (hA : Lawful A) (hzero : ∀ page j, ¬Present (A.fill .osPt page j)) (hk : TableOk A k)
include hA hzero hk

section Level

variable {p : List Index} {i : Index} {frame table : Frame} {code : Word} {rs : List Region}
  (hp : k.lookup p = some frame) (hn : p.length < 3) (hcode : code.toNat < 4096)
  (hopen : Open code) (h : descend A code i frame k = some (table, k'))
include hp hn h

/-- A level that the walk got past. -/
lemma descended_of_descend (hcode : code.toNat < 4096) (hopen : Open code) :
    Descended A k k' (p ++ [i]) table := by
  by_cases hentry : Present (k.mem frame i)
  · rw [descend_present hentry, Option.some.injEq, Prod.mk.injEq] at h
    obtain ⟨rfl, rfl⟩ := h
    exact raise_descended hk hp hcode hentry
  · rw [descend_absent hA hk hp (by omega) hentry, Option.map_eq_some_iff] at h
    obtain ⟨⟨f, a'⟩, halloc, h⟩ := h
    rw [Prod.mk.injEq] at h
    obtain ⟨rfl, rfl⟩ := h
    exact give_descended hA hk halloc hp (by omega) hcode hopen.present hentry
      (Or.inr (hzero (k.mem f)))

omit hzero in
/-- The frame for a table that was missing there came from the allocator. -/
lemma supply_of_descend (hrest : (supply A rs k'.frames).isSome) :
    (supply A (tableThen k (p ++ [i]) rs) k.frames).isSome := by
  by_cases hentry : Present (k.mem frame i)
  · rw [descend_present hentry, Option.some.injEq, Prod.mk.injEq] at h
    obtain ⟨-, rfl⟩ := h
    rw [tableThen, lookup_snoc hp, tree_of_present hentry]
    exact hrest
  · rw [descend_absent hA hk hp (by omega) hentry, Option.map_eq_some_iff] at h
    obtain ⟨⟨f, a'⟩, halloc, h⟩ := h
    rw [Prod.mk.injEq] at h
    obtain ⟨-, rfl⟩ := h
    obtain ⟨⟨fs, a₂⟩, hfs⟩ := Option.isSome_iff_exists.mp hrest
    have hlater : supply A rs a' = some (fs, a₂) := hfs
    rw [tableThen, lookup_snoc hp, tree_of_not_present hentry]
    simp [supply, halloc, hlater]

end Level

/-- A page that was entered had all the frames it needed. -/
lemma supply_of_mapPage (h : mapPage A s address k = some k') :
    (supply A (needs k address) k.frames).isSome := by
  simp only [mapPage, Option.bind_eq_some_iff, Option.map_eq_some_iff, osPfnAlloc,
    Prod.exists] at h
  obtain ⟨f₁, k₁, h₁, f₂, k₂, h₂, f₃, k₃, h₃, page, k₄, ⟨f, a', halloc, -⟩, -⟩ := h
  generalize hcode : accessCode (k.ctx.mms s).accessFlags = code at *
  have hlt : code.toNat < 4096 := hcode ▸ accessCode_lt
  have hopen : Open code := hcode ▸ open_accessCode
  have hd₁ := descended_of_descend (p := []) hA hzero hk rfl (by norm_num) h₁ hlt hopen
  have hd₂ := descended_of_descend hA hzero hd₁.ok hd₁.self (by simp) h₂ hlt hopen
  have hpage : (supply A [.user] k₃.frames).isSome := by simp [supply, halloc]
  have hs₃ := supply_of_descend hA hd₂.ok hd₂.self (by simp) h₃ hpage
  have hs₂ := supply_of_descend hA hd₁.ok hd₁.self (by simp) h₂ hs₃
  have hs₁ := supply_of_descend (p := []) hA hk rfl (by norm_num) h₁ hs₂
  rw [← hd₂.tableThen_eq (by simp) (by simp), ← hd₁.tableThen_eq (by simp) (by simp),
    ← hd₁.tableThen_eq (by simp) (by simp)] at hs₁
  rw [needs_eq]
  exact hs₁

/-- What a page took and changed that was entered for an address without one. -/
theorem onePage_of_mapPage (hnone : k.lookup (path address) = none)
    (h : mapPage A s address k = some k') : ∃ page fs,
      supply A (needs k address) k.frames = some (fs, k'.frames) ∧
        OnePage A k k' address page fs := by
  obtain ⟨⟨fs, a'⟩, hfs⟩ := Option.isSome_iff_exists.mp (supply_of_mapPage hA hzero hk h)
  obtain ⟨k₁, page, hmap, hframes, hone⟩ := mapPage_supplied (s := s) hA hzero hk hnone hfs
  rw [h, Option.some.injEq] at hmap
  subst hmap
  exact ⟨page, fs, by rw [hframes, hfs], hone⟩

/-- The page of a fault is there for the access afterwards, unless that is a store and the
segment may not be written. -/
lemma translate_of_mapPage (hnone : k.lookup (path address) = none)
    (h : mapPage A s address k = some k') :
    (translate (needed write) k'.mem k'.ctx.pgd address).isSome ↔
      ¬(write = true ∧ ¬MayWrite (k.ctx.mms s).accessFlags) := by
  obtain ⟨page, fs, -, hone⟩ := onePage_of_mapPage hA hzero hk hnone h
  have hguard := (mapped_guarded (mapPage_spec hA hzero hk hnone h) rfl).1
  rw [writable_accessCode] at hguard
  cases write with
  | false =>
    have hread : translate (needed false) k'.mem k'.ctx.pgd address = some page := hone.found
    rw [hread]
    simp
  | true =>
    rw [← hguard, Option.isSome_iff_exists, needed, if_pos rfl]
    simp only [translate_writable_iff, hone.found]
    simp

/-- An access is settled with one fault at most, whatever the number of tries allowed. -/
theorem access_settled (hfuel : 2 ≤ fuel) :
    access A write address fuel k = settle A write address k := by
  obtain ⟨n, rfl⟩ := Nat.exists_eq_add_of_le' hfuel
  cases htr : translate (needed write) k.mem k.ctx.pgd address with
  | some page =>
    have hhit : (translate (needed write) k.mem k.ctx.pgd address).isSome := by rw [htr]; rfl
    rw [access_of_hit hhit, settle_of_hit hhit]
  | none =>
    cases hacc : accepting k.ctx address (faultCode k write address) with
    | none => rw [access_of_refused htr hacc, settle_of_refused htr hacc]
    | some s =>
      rw [access_of_fault htr hacc, settle_of_fault htr hacc]
      cases hmap : mapPage A s address k with
      | none => rfl
      | some k' =>
        have hnone := lookup_of_accepting hacc
        obtain ⟨page, fs, -, hone⟩ := onePage_of_mapPage hA hzero hk hnone hmap
        have hfound : (translate (needed write) k'.mem k'.ctx.pgd address).isSome ↔
            ¬(write = true ∧ ¬MayWrite (k.ctx.mms s).accessFlags) :=
          translate_of_mapPage hA hzero hk hnone hmap
        have hthere : (translate 1 k'.mem k'.ctx.pgd address).isSome :=
          Option.isSome_iff_exists.mpr ⟨page, (translate_open_iff.mp hone.found).1⟩
        rw [Option.bind_some, Option.map_some, entered]
        -- the second try finds the page, or a store is refused there
        split_ifs with hrefused
        · refine access_of_refused (Option.not_isSome_iff_eq_none.mp fun h => ?_)
            (accepting_of_present hthere)
          exact hfound.mp h hrefused
        · exact access_of_hit (hfound.mpr hrefused)

end Entered

end Tries

end OsAssignments.Processes
