import OsAssignments.OwnedFiles
import Mathlib.Data.Nat.Digits.Lemmas

/-!
# The tester

The threads of `test.c` put, rename and get values through `kvstore.c`, each under two
names of its own. The kernel turns their system calls into callbacks, which are served one
by one: how often it looks a name up around a call, into which pieces it splits a write and
how many pages it asks for at a time are parameters.
-/
namespace OsAssignments.Tester

open ByteMemory ObjectTable FileSystem Programs

variable {ι : Type}

section Calls

/-- What `error` is set to. -/
inductive Failure
  | write
  | rename
  | read
  | mismatch
  deriving DecidableEq

/-- What a thread asks for: a callback, a global variable, a mutex, or the end of the process. -/
inductive Call
  | callback (c : Callback)
  | readFail
  | readStop
  | setFail (num : ℤ) (error : Failure)
  | lockFail
  | unlockFail
  | lockRead
  | unlockRead
  | exit

abbrev Call.Answer : Call → Type
  | .callback _ => Result
  | .readFail => ℤ
  | .readStop => Bool
  | _ => Unit

/-- The object store and the globals of the tester; a mutex knows who locked it. -/
structure World (ι : Type) where
  store : Store
  fail : ℤ
  error : Option Failure
  stop : Bool
  failLock : Option ι
  readLock : Option ι

/-- One call of thread `i`. A mutex that is locked makes its thread wait, and nothing goes on after
the end of the process. -/
def serve (build : Build) (i : ι) (x : World ι) : (c : Call) → Option (World ι × c.Answer)
  | .callback c => (callback build x.store c).map fun y => ({ x with store := y.1 }, y.2)
  | .readFail => some (x, x.fail)
  | .readStop => some (x, x.stop)
  | .setFail num error => some ({ x with fail := num, error := some error }, ())
  | .lockFail => if x.failLock = none then some ({ x with failLock := some i }, ()) else none
  | .unlockFail => some ({ x with failLock := none }, ())
  | .lockRead => if x.readLock = none then some ({ x with readLock := some i }, ()) else none
  | .unlockRead => some ({ x with readLock := none }, ())
  | .exit => none

abbrev Code (α : Type) := Program Call Call.Answer α

def request (c : Callback) : Code Result := Program.ask (Call.callback c)
def readFail : Code ℤ := Program.ask Call.readFail
def readStop : Code Bool := Program.ask Call.readStop
def setFail (num : ℤ) (error : Failure) : Code Unit := Program.ask (Call.setFail num error)
def lockFail : Code Unit := Program.ask Call.lockFail
def unlockFail : Code Unit := Program.ask Call.unlockFail
def lockRead : Code Unit := Program.ask Call.lockRead
def unlockRead : Code Unit := Program.ask Call.unlockRead
def exit : Code Unit := Program.ask Call.exit

end Calls

section Kernel

/-- The system calls around which the kernel looks a name up; `created` is the moment after
a file was made. -/
inductive Syscall
  | stat
  | create
  | created
  | openFile
  | rename
  | unlink

/-- What the kernel decides: how often it looks a name up, the offset and the count of each
piece of a write of a size, and how many pages it asks for from a page on. -/
structure Kernel where
  looks : Syscall → ℕ
  pieces : ℕ → List (ℕ × ℕ)
  ahead : ℕ → ℕ

/-- The name is looked up a number of times. -/
def lookUp (key : Path) : ℕ → Code (List Result)
  | 0 => pure []
  | looks + 1 => do
    let r ← request (.getattr key)
    let rs ← lookUp key looks
    pure (r :: rs)

/-- A lookup found the name. -/
def found (rs : List Result) : Bool := rs.any fun r => 0 ≤ r.ret

/-- A lookup did not find the name. -/
def missed (rs : List Result) : Bool := rs.any fun r => r.ret < 0

/-- `write` on an open file, piece by piece, with `done` bytes written so far; an error
after the first piece is a short count. -/
def writePieces (fd : ℤ) (val : Memory) : List (ℕ × ℕ) → ℕ → Code ℤ
  | [], done => pure done
  | (offset, count) :: pieces, done => do
    let r ← request (.write fd (fun x => val (offset + x)) count offset)
    if r.ret < 0 then pure (if done = 0 then r.ret else done)
    else writePieces fd val pieces (done + count)

/-- `read` on an open file with `total` bytes, from page `k` on; the kernel asks for `ahead k`
pages there. An error after the first pages is a short count. -/
def readPages (ahead : ℕ → ℕ) (fd : ℤ) (total : ℕ) : ℕ → ℕ → Memory → Code (ℤ × Memory)
  | 0, _, val => pure (total, val)
  | fuel + 1, k, val =>
    if totalBlocks total ≤ k then pure (total, val) else do
      let pages := min (ahead k) (totalBlocks total - k)
      let r ← request (.read fd (blockSize * pages) (blockSize * k))
      if r.ret < 0 then pure (if k = 0 then r.ret else (blockSize * k : ℕ), val)
      else
        let count := min (blockSize * pages) (total - blockSize * k)
        readPages ahead fd total fuel (k + pages)
          (storeBytes val (blockSize * k) count fun x => r.bytes.getD x 0)

end Kernel

section Kvstore

variable (kernel : Kernel)

/-- `st_size`. -/
def size (r : Result) : ℤ := (r.stat.bind Stat.details).elim 0 Prod.fst

def lookupKey (key : Path) : Code ℤ := do
  let rs ← lookUp key (kernel.looks .stat)
  if missed rs then pure (-1) else
    let r ← request (.getattr key)
    pure (if r.ret < 0 then -1 else size r)

/-- The file must be new, and it is looked up once it is there. -/
def putKey (key : Path) (val : Memory) (size : ℕ) : Code ℤ := do
  let rs ← lookUp key (kernel.looks .create)
  if found rs then pure (-1) else
    let r ← request (.create key)
    if r.ret < 0 then pure (-1) else
      let rs ← lookUp key (kernel.looks .created)
      if missed rs then pure (-1) else
        let fd := r.fh.getD 0
        let written ← writePieces fd val (kernel.pieces size) 0
        if written < 0 then pure (-1) else
          let _ ← request (.release fd)
          pure 0

/-- At least a page is asked for, but no more is read than the file has. -/
def getKey (key : Path) (val : Memory) : Code (ℤ × Memory) := do
  let rs ← lookUp key (kernel.looks .openFile)
  if missed rs then pure (-1, val) else
    let opened ← request (.openFile key)
    if opened.ret < 0 then pure (-1, val) else
      let fd := opened.fh.getD 0
      let sbuf ← request (.getattr key)
      if sbuf.ret < 0 then
        exit
        pure (-1, val)
      else
        let asked := if size sbuf < 4096 then 4096 else size sbuf
        let total := (min asked (size sbuf)).toNat
        let r ← readPages kernel.ahead fd total (totalBlocks total) 0 val
        if r.1 < 0 then pure (-1, r.2) else
          let _ ← request (.release fd)
          pure (0, r.2)

/-- Both names are looked up, and the old one must be there. -/
def renameKey (old new : Path) : Code ℤ := do
  let rs ← lookUp old (kernel.looks .rename)
  if missed rs then pure (-1) else
    let _ ← lookUp new (kernel.looks .rename)
    let r ← request (.rename old new)
    pure (if r.ret < 0 then -1 else 0)

def deleteKey (key : Path) : Code ℤ := do
  let rs ← lookUp key (kernel.looks .unlink)
  if missed rs then pure (-1) else
    let r ← request (.unlink key)
    pure (if r.ret < 0 then -1 else 0)

end Kvstore

section Names

/-- `%d` of a number that is not negative. -/
def decimal (num : ℕ) : List UInt8 :=
  if num = 0 then [48] else (Nat.digits 10 num).reverse.map fun d => UInt8.ofNat (48 + d)

/-- The bytes of "testfile-". -/
def testfile : List UInt8 := [116, 101, 115, 116, 102, 105, 108, 101, 45]

lemma mem_decimal {num : ℕ} {c : UInt8} (hc : c ∈ decimal num) :
    ∃ d < 10, c = UInt8.ofNat (48 + d) := by
  unfold decimal at hc
  split_ifs at hc
  · exact ⟨0, by norm_num, List.mem_singleton.mp hc⟩
  · obtain ⟨d, hd, rfl⟩ := List.mem_map.mp hc
    exact ⟨d, Nat.digits_lt_base (by norm_num) (List.mem_reverse.mp hd), rfl⟩

lemma noNul_decimal (num : ℕ) : ∀ c ∈ decimal num, c ≠ 0 := by
  intro c hc
  obtain ⟨d, hd, rfl⟩ := mem_decimal hc
  interval_cases d <;> decide

lemma noNul_append {l l' : List UInt8} (h : ∀ c ∈ l, c ≠ 0) (h' : ∀ c ∈ l', c ≠ 0) :
    ∀ c ∈ l ++ l', c ≠ 0 := fun c hc => (List.mem_append.mp hc).elim (h c) (h' c)

/-- The bytes of "new". -/
def new : List UInt8 := [110, 101, 119]

lemma noNul_testfile : ∀ c ∈ testfile, c ≠ 0 := by simp [testfile]

lemma noNul_new : ∀ c ∈ new, c ≠ 0 := by simp [new]

/-- `key` of thread `num`: "testfile-%d". -/
def key (num : ℕ) : CString :=
  ⟨testfile ++ decimal num, noNul_append noNul_testfile (noNul_decimal num)⟩

/-- `keyp` of thread `num`: "newtestfile-%d". -/
def keyp (num : ℕ) : CString := ⟨new ++ (key num).bytes, noNul_append noNul_new (key num).noNul⟩

lemma key_ne_keyp (a b : ℕ) : key a ≠ keyp b := by
  intro heq
  have hhead := congrArg (fun k => k.bytes.head?) heq
  simp [key, keyp, testfile, new] at hhead

/-- A number can be read back from its digits. -/
lemma decimal_value (num : ℕ) :
    Nat.ofDigits 10 ((decimal num).map fun c => c.toNat - 48).reverse = num := by
  rcases eq_or_ne num 0 with rfl | hnum
  · simp [decimal]
  have hmap : (Nat.digits 10 num).map (fun d => (UInt8.ofNat (48 + d)).toNat - 48) =
      Nat.digits 10 num := by
    refine (List.map_congr_left fun d hd => ?_).trans (List.map_id _)
    have hlt : d < 10 := Nat.digits_lt_base (by norm_num) hd
    rw [UInt8.toNat_ofNat', Nat.mod_eq_of_lt (by omega), id, Nat.add_sub_cancel_left]
  rw [decimal, if_neg hnum, List.map_map, ← List.map_reverse, List.reverse_reverse]
  exact (congrArg (Nat.ofDigits 10) hmap).trans (Nat.ofDigits_digits 10 num)

lemma decimal_injective : Function.Injective decimal := fun a b h => by
  rw [← decimal_value a, h, decimal_value]

lemma key_injective : Function.Injective key := fun a b h => by
  have hbytes := congrArg CString.bytes h
  exact decimal_injective (List.append_cancel_left hbytes)

lemma keyp_injective : Function.Injective keyp := fun a b h => by
  have hbytes := congrArg CString.bytes h
  have hkey : (key a).bytes = (key b).bytes := List.append_cancel_left hbytes
  exact decimal_injective (List.append_cancel_left hkey)

lemma length_decimal {num : ℕ} (h : num < 2 ^ 31) : (decimal num).length ≤ 10 := by
  unfold decimal
  split_ifs
  · norm_num
  · rw [List.length_map, List.length_reverse, Nat.digits_length_le_iff (by norm_num)]
    omega

lemma fits_key {num : ℕ} (h : num < 2 ^ 31) : Fits (key num) := by
  have hlength := length_decimal h
  show (testfile ++ decimal num).length ≤ 47
  rw [List.length_append]
  have htext : testfile.length = 9 := rfl
  omega

lemma fits_keyp {num : ℕ} (h : num < 2 ^ 31) : Fits (keyp num) := by
  have hlength := length_decimal h
  show (new ++ (testfile ++ decimal num)).length ≤ 47
  rw [List.length_append, List.length_append]
  have htext : testfile.length = 9 := rfl
  have hnew : new.length = 3 := rfl
  omega

end Names

section Run

/-- The constants of the tester, the arrays of its threads (the value that each puts, and what
is in the memory for the value it gets), and its kernel. -/
structure Config (ι : Type) where
  size : ℕ
  runs : ℕ
  rdRuns : ℕ
  num : ι → ℕ
  value : ι → Memory
  obtained : ι → Memory
  kernel : Kernel

/-- The string in a buffer of `size` bytes. -/
def stringOf (size : ℕ) (m : Memory) : List UInt8 := ((List.range size).map m).takeWhile (· ≠ 0)

/-- The first failure is noted, unless thread 0 noted it before. -/
def noteFailure (num : ℕ) (error : Failure) : Code Unit := do
  lockFail
  let fail ← readFail
  if fail = 0 then
    setFail num error
    unlockFail
  else unlockFail

/-- `fail || stop`. -/
def stopped : Code Bool := do
  let fail ← readFail
  if fail ≠ 0 then pure true else readStop

variable (cfg : Config ι) (i : ι)

/-- One of the `RD_RUNS` reads; it carries `obtained` on and says whether the loop breaks. -/
def readRound (obtained : Memory) : Code (Bool × Memory) := do
  let halt ← stopped
  if halt then pure (true, obtained) else
    lockRead
    let r ← getKey cfg.kernel ⟨keyp (cfg.num i)⟩ obtained
    unlockRead
    if r.1 < 0 then
      noteFailure (cfg.num i) .read
      pure (true, r.2)
    else if stringOf cfg.size (cfg.value i) ≠ stringOf cfg.size r.2 then
      noteFailure (cfg.num i) .mismatch
      pure (true, r.2)
    else pure (false, r.2)

/-- Clean up after earlier runs. -/
def cleanUp (kernel : Kernel) (name : CString) : Code Unit := do
  let found ← lookupKey kernel ⟨name⟩
  if 0 < found then
    let _ ← deleteKey kernel ⟨name⟩
    pure ()
  else pure ()

/-- One of the `RUNS` rounds. -/
def testRound (obtained : Memory) : Code (Bool × Memory) := do
  let halt ← stopped
  if halt then pure (true, obtained) else
    cleanUp cfg.kernel (key (cfg.num i))
    cleanUp cfg.kernel (keyp (cfg.num i))
    let w ← putKey cfg.kernel ⟨key (cfg.num i)⟩ (cfg.value i) cfg.size
    if w < 0 then
      noteFailure (cfg.num i) .write
      pure (true, obtained)
    else
      let r ← renameKey cfg.kernel ⟨key (cfg.num i)⟩ ⟨keyp (cfg.num i)⟩
      if r < 0 then
        noteFailure (cfg.num i) .rename
        pure (true, obtained)
      else
        let obtained ← Program.rounds (readRound cfg i) cfg.rdRuns obtained
        pure (false, obtained)

/-- `run` of thread `i`; it ends with what it read last. -/
def run : Code Memory := Program.rounds (testRound cfg i) cfg.runs (cfg.obtained i)

/-- The threads of the tester at their start, on a mounted store. -/
def start (s : Store) : Interleaving.Threads (World ι) (Code Memory) ι where
  shared := ⟨s, 0, none, false, none, none⟩
  locals := run cfg

end Run

end OsAssignments.Tester
