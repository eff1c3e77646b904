import OsAssignments.BlockCache
import OsAssignments.Interleaving

/-!
# Concurrent use of the cache

Threads call `write_cached` and `read_cached`, one call after the other. Both hold
`lock_cache` while they look at the slot, evict, copy byte by byte and set the tag. Whatever
the order of the steps, the calls take effect one at a time, so no read sees part of a write.
-/
namespace OsAssignments.ConcurrentCache

open Machine Interleaving BlockCache

section Steps

inductive Call
  | write (block : ℤ) (buf : Block)
  | read (block : ℤ)

def Call.block : Call → ℤ
  | write block _ => block
  | read block => block

/-- The device, and `lock_cache`. -/
structure Locked where
  dev : Device
  lockCache : Bool

/-- Where `write_cached` is, under the lock. -/
inductive Writing
  | testing
  | evicting
  | copying (i : ℕ)
  | tagging
  | marking
  | unlocking

/-- Where `read_cached` is, under the lock; the copy of a hit is a loop of its own. -/
inductive Reading
  | testing
  | testingDirty
  | evicting
  | fetching
  | copying (j : ℕ)
  | tagging
  | marking
  | copyingHit (j : ℕ)
  | unlocking

/-- A thread before a call, or in one; a reader has its buffer. -/
inductive Place
  | outside
  | writing (block : ℤ) (buf : Block) (p : Writing)
  | reading (block : ℤ) (buf : Block) (p : Reading)

def Place.isInside : Place → Bool
  | outside => false
  | writing _ _ _ | reading _ _ _ => true

/-- The place of a call that has just taken the lock; the buffer of a reader is all to be
filled. -/
def Call.start : Call → Place
  | write block buf => .writing block buf .testing
  | read block => .reading block (fun _ => 0) .testing

/-- A thread with the calls it still has to make, and the blocks that its reads returned. -/
structure Worker where
  todo : List Call
  results : List (Option Block)
  place : Place

abbrev Critical (w : Worker) : Prop := w.place.isInside = true

/-- `write_block` of the slot. -/
def evict (d : Device) (off : ℤ) : Device :=
  { d with disk := (writeBlock d.disk (writeOffset + d.cacheArray off * cacheBlocks + off)
      (d.cache off)).1 }

/-- `read_block` into the slot. -/
def fetch (d : Device) (block off : ℤ) : Device :=
  { d with
    disk := (readBlock d.disk (writeOffset + block) (d.cache off)).1
    cache := Function.update d.cache off
      (readBlock d.disk (writeOffset + block) (d.cache off)).2.1 }

def setByte (buf : Block) (j : Fin blockSize) (x : UInt8) : Block := Function.update buf j x

/-- `cache_write[i]=buf[i]`. -/
def fillByte (d : Device) (off : ℤ) (j : Fin blockSize) (x : UInt8) : Device :=
  { d with cache := Function.update d.cache off (setByte (d.cache off) j x) }

def setTag (d : Device) (off index : ℤ) : Device :=
  { d with cacheArray := Function.update d.cacheArray off index }

def setDirty (d : Device) (off : ℤ) (dirty : Bool) : Device :=
  { d with dirtyCache := Function.update d.dirtyCache off dirty }

/-- One step of `write_cached`, which does not return yet. -/
def actWrite (d : Device) (block : ℤ) (buf : Block) : Writing → Option (Device × Writing)
  | .testing => some (d, if d.dirtyCache (block.tmod cacheBlocks) then .evicting else .copying 0)
  | .evicting => some (evict d (block.tmod cacheBlocks), .copying 0)
  | .copying i =>
    if h : i < blockSize then
      some (fillByte d (block.tmod cacheBlocks) ⟨i, h⟩ (buf ⟨i, h⟩), .copying (i + 1))
    else some (d, .tagging)
  | .tagging => some (setTag d (block.tmod cacheBlocks) (block.tdiv cacheBlocks), .marking)
  | .marking => some (setDirty d (block.tmod cacheBlocks) true, .unlocking)
  | .unlocking => none

/-- One step of `read_cached`, which does not return yet. -/
def actRead (d : Device) (block : ℤ) (buf : Block) : Reading → Option (Device × Block × Reading)
  | .testing =>
    some (d, buf, if d.cacheArray (block.tmod cacheBlocks) ≠ block.tdiv cacheBlocks
      then .testingDirty else .copyingHit 0)
  | .testingDirty =>
    some (d, buf, if d.dirtyCache (block.tmod cacheBlocks) then .evicting else .fetching)
  | .evicting => some (evict d (block.tmod cacheBlocks), buf, .fetching)
  | .fetching => some (fetch d block (block.tmod cacheBlocks), buf, .copying 0)
  | .copying j =>
    if h : j < blockSize then
      some (d, setByte buf ⟨j, h⟩ (d.cache (block.tmod cacheBlocks) ⟨j, h⟩), .copying (j + 1))
    else some (d, buf, .tagging)
  | .tagging => some (setTag d (block.tmod cacheBlocks) (block.tdiv cacheBlocks), buf, .marking)
  | .marking => some (setDirty d (block.tmod cacheBlocks) false, buf, .unlocking)
  | .copyingHit j =>
    if h : j < blockSize then
      some (d, setByte buf ⟨j, h⟩ (d.cache (block.tmod cacheBlocks) ⟨j, h⟩), .copyingHit (j + 1))
    else some (d, buf, .unlocking)
  | .unlocking => none

variable {ι : Type*}

/-- One step of a thread: to take the lock for its next call, one inside the call, or to give
the lock back and return. -/
def act (_i : ι) (x : Locked) (w : Worker) : Option (Locked × Worker) :=
  match w.place with
  | .outside => match w.todo with
    | [] => none
    | call :: todo =>
      if x.lockCache then none else some (⟨x.dev, true⟩, ⟨todo, w.results, call.start⟩)
  | .writing _ _ .unlocking => some (⟨x.dev, false⟩, ⟨w.todo, w.results ++ [none], .outside⟩)
  | .reading _ buf .unlocking =>
    some (⟨x.dev, false⟩, ⟨w.todo, w.results ++ [some buf], .outside⟩)
  | .writing block buf p =>
    (actWrite x.dev block buf p).map fun y =>
      (⟨y.1, x.lockCache⟩, { w with place := .writing block buf y.2 })
  | .reading block buf p =>
    (actRead x.dev block buf p).map fun y =>
      (⟨y.1, x.lockCache⟩, { w with place := .reading block y.2.1 y.2.2 })

/-- What a step does. -/
inductive Stepped (x : Locked) (w : Worker) : Locked → Worker → Prop
  | enters {call : Call} {todo : List Call} : w.place = .outside → w.todo = call :: todo →
      x.lockCache = false → Stepped x w ⟨x.dev, true⟩ ⟨todo, w.results, call.start⟩
  | writes {block : ℤ} {buf : Block} {p p' : Writing} {d : Device} :
      w.place = .writing block buf p → actWrite x.dev block buf p = some (d, p') →
      Stepped x w ⟨d, x.lockCache⟩ { w with place := .writing block buf p' }
  | reads {block : ℤ} {buf buf' : Block} {p p' : Reading} {d : Device} :
      w.place = .reading block buf p → actRead x.dev block buf p = some (d, buf', p') →
      Stepped x w ⟨d, x.lockCache⟩ { w with place := .reading block buf' p' }
  | wrote {block : ℤ} {buf : Block} : w.place = .writing block buf .unlocking →
      Stepped x w ⟨x.dev, false⟩ ⟨w.todo, w.results ++ [none], .outside⟩
  | read {block : ℤ} {buf : Block} : w.place = .reading block buf .unlocking →
      Stepped x w ⟨x.dev, false⟩ ⟨w.todo, w.results ++ [some buf], .outside⟩

variable {i : ι} {x x' : Locked} {w w' : Worker}

lemma stepped_of_act (h : act i x w = some (x', w')) : Stepped x w x' w' := by
  unfold act at h
  split at h
  · next hplace =>
    split at h
    · cases h
    · next call todo htodo =>
      split_ifs at h with hlock
      cases h
      exact .enters hplace htodo (Bool.eq_false_of_not_eq_true hlock)
  · next hplace =>
    cases h
    exact .wrote hplace
  · next hplace =>
    cases h
    exact .read hplace
  · next hplace =>
    obtain ⟨y, hy, heq⟩ := Option.map_eq_some_iff.mp h
    cases heq
    exact .writes hplace hy
  · next hplace =>
    obtain ⟨y, hy, heq⟩ := Option.map_eq_some_iff.mp h
    cases heq
    exact .reads hplace hy

lemma critical_iff : Critical w ↔ w.place ≠ .outside := by
  unfold Critical
  cases w.place <;> simp [Place.isInside]

lemma start_isInside (call : Call) : call.start.isInside = true := by
  cases call <;> rfl

/-- A thread between calls can only take the lock. -/
lemma critical_of_act (h : act i x w = some (x', w')) (hout : ¬Critical w) : Critical w' := by
  cases stepped_of_act h with
  | enters => exact start_isInside _
  | writes => rfl
  | reads => rfl
  | wrote hplace => exact absurd (critical_iff.mpr (by simp [hplace])) hout
  | read hplace => exact absurd (critical_iff.mpr (by simp [hplace])) hout

/-- A call takes `lock_cache`, and gives it back when it returns. -/
lemma guarded : Guarded (act (ι := ι)) Locked.lockCache Critical where
  locking h := by
    cases stepped_of_act h with
    | enters hplace _ hfree =>
      have hout : ¬Critical _ := critical_iff.not.mpr (not_not_intro hplace)
      refine ⟨fun _ _ => ⟨hfree, rfl⟩, fun hin => absurd hin hout, fun hsame => ?_⟩
      exact absurd (hsame.mpr (start_isInside _)) hout
    | writes hplace _ =>
      refine ⟨fun hout => ?_, fun _ hout => absurd rfl hout, fun _ => rfl⟩
      exact absurd (critical_iff.mpr (by simp [hplace])) hout
    | reads hplace _ =>
      refine ⟨fun hout => ?_, fun _ hout => absurd rfl hout, fun _ => rfl⟩
      exact absurd (critical_iff.mpr (by simp [hplace])) hout
    | wrote hplace =>
      refine ⟨fun _ hin => absurd hin Bool.false_ne_true, fun _ _ => rfl, fun hsame => ?_⟩
      exact absurd (hsame.mp (critical_iff.mpr (by simp [hplace]))) Bool.false_ne_true
    | read hplace =>
      refine ⟨fun _ hin => absurd hin Bool.false_ne_true, fun _ _ => rfl, fun hsame => ?_⟩
      exact absurd (hsame.mp (critical_iff.mpr (by simp [hplace]))) Bool.false_ne_true
  outside h hout hout' := absurd (critical_of_act h hout) hout'

end Steps

section Alone

variable {d d' d'' : Device} {b off : ℤ} {buf buf' x old : Block} {i j : ℕ}

/-- The slot evicted and filled. -/
def slotted (d : Device) (off : ℤ) (x : Block) : Device :=
  { writeBack d off with cache := Function.update d.cache off x }

/-- The first `j` bytes come from `x`. -/
def mixed (x old : Block) (j : ℕ) : Block := fun i => if i.val < j then x i else old i

lemma evict_eq (h : d.dirtyCache off = true) : evict d off = writeBack d off := (if_pos h).symm

lemma slotted_same : slotted d off (d.cache off) = writeBack d off := by
  rw [slotted, Function.update_eq_self, ← writeBack_cache (d := d) (o := off)]

lemma mixed_zero : mixed x old 0 = old := by
  funext i
  simp [mixed]

lemma mixed_all : mixed x old blockSize = x := by
  funext i
  simp [mixed]

lemma setByte_mixed (hj : j < blockSize) :
    setByte (mixed x old j) ⟨j, hj⟩ (x ⟨j, hj⟩) = mixed x old (j + 1) := by
  funext i
  rw [setByte, Function.update_apply]
  rcases lt_trichotomy i.val j with hlt | heq | hgt
  · rw [if_neg (by simp [Fin.ext_iff]; omega), mixed, mixed, if_pos hlt, if_pos (by omega)]
  · obtain rfl : i = ⟨j, hj⟩ := Fin.ext heq
    rw [if_pos rfl, mixed, if_pos (Nat.lt_succ_self j)]
  · rw [if_neg (by simp [Fin.ext_iff]; omega), mixed, mixed, if_neg (by omega),
      if_neg (by omega)]

lemma fillByte_slotted {k : Fin blockSize} {c : UInt8} :
    fillByte (slotted d off x) off k c = slotted d off (setByte x k c) := by
  simp [fillByte, slotted]

/-- The device while `write_cached` is under way alone, from `d`. -/
def WritingAt (d : Device) (b : ℤ) (buf : Block) (d' : Device) : Writing → Prop
  | .testing => d' = d
  | .evicting => d' = d ∧ d.dirtyCache (b.tmod cacheBlocks) = true
  | .copying i => i ≤ blockSize ∧
    d' = slotted d (b.tmod cacheBlocks) (mixed buf (d.cache (b.tmod cacheBlocks)) i)
  | .tagging => d' = slotted d (b.tmod cacheBlocks) buf
  | .marking =>
    d' = setTag (slotted d (b.tmod cacheBlocks) buf) (b.tmod cacheBlocks) (b.tdiv cacheBlocks)
  | .unlocking => d' = writeCached d b buf

lemma WritingAt.step {p p' : Writing} (h : WritingAt d b buf d' p)
    (hact : actWrite d' b buf p = some (d'', p')) : WritingAt d b buf d'' p' := by
  have hbegin : WritingAt d b buf (writeBack d (b.tmod cacheBlocks)) (.copying 0) := by
    refine ⟨Nat.zero_le _, ?_⟩
    rw [mixed_zero, slotted_same]
  cases p with
  | testing =>
    obtain rfl : d' = d := h
    obtain ⟨rfl, rfl⟩ := Prod.mk.inj (Option.some.inj hact)
    split_ifs with hdirty
    · exact ⟨rfl, hdirty⟩
    · rwa [writeBack, if_neg hdirty] at hbegin
  | evicting =>
    obtain ⟨rfl, hdirty⟩ := h
    obtain ⟨rfl, rfl⟩ := Prod.mk.inj (Option.some.inj hact)
    rwa [evict_eq hdirty]
  | copying i =>
    obtain ⟨hle, rfl⟩ := h
    rw [actWrite] at hact
    split_ifs at hact with hi <;> obtain ⟨rfl, rfl⟩ := Prod.mk.inj (Option.some.inj hact)
    · refine ⟨hi, ?_⟩
      rw [fillByte_slotted, setByte_mixed]
    · obtain rfl : i = blockSize := by omega
      rw [mixed_all]
      rfl
  | tagging =>
    obtain rfl : d' = _ := h
    obtain ⟨rfl, rfl⟩ := Prod.mk.inj (Option.some.inj hact)
    rfl
  | marking =>
    obtain rfl : d' = _ := h
    obtain ⟨rfl, rfl⟩ := Prod.mk.inj (Option.some.inj hact)
    simp [WritingAt, writeCached, setDirty, setTag, slotted]
  | unlocking => cases hact

/-- The device and the buffer while `read_cached` is under way alone, from `d`. -/
def ReadingAt (d : Device) (b : ℤ) (d' : Device) (buf : Block) : Reading → Prop
  | .testing => d' = d
  | .testingDirty => d' = d ∧ d.cacheArray (b.tmod cacheBlocks) ≠ b.tdiv cacheBlocks
  | .evicting => d' = d ∧ d.cacheArray (b.tmod cacheBlocks) ≠ b.tdiv cacheBlocks ∧
    d.dirtyCache (b.tmod cacheBlocks) = true
  | .fetching => d' = writeBack d (b.tmod cacheBlocks) ∧
    d.cacheArray (b.tmod cacheBlocks) ≠ b.tdiv cacheBlocks
  | .copying j => d' = fetch (writeBack d (b.tmod cacheBlocks)) b (b.tmod cacheBlocks) ∧
    d.cacheArray (b.tmod cacheBlocks) ≠ b.tdiv cacheBlocks ∧ j ≤ blockSize ∧
    ∃ old, buf = mixed (d'.cache (b.tmod cacheBlocks)) old j
  | .tagging => d' = fetch (writeBack d (b.tmod cacheBlocks)) b (b.tmod cacheBlocks) ∧
    d.cacheArray (b.tmod cacheBlocks) ≠ b.tdiv cacheBlocks ∧ buf = d'.cache (b.tmod cacheBlocks)
  | .marking =>
    d' = setTag (fetch (writeBack d (b.tmod cacheBlocks)) b (b.tmod cacheBlocks))
      (b.tmod cacheBlocks) (b.tdiv cacheBlocks) ∧
    d.cacheArray (b.tmod cacheBlocks) ≠ b.tdiv cacheBlocks ∧ buf = d'.cache (b.tmod cacheBlocks)
  | .copyingHit j => d' = d ∧ d.cacheArray (b.tmod cacheBlocks) = b.tdiv cacheBlocks ∧
    j ≤ blockSize ∧ ∃ old, buf = mixed (d.cache (b.tmod cacheBlocks)) old j
  | .unlocking => (d', buf) = readCached d b

lemma ReadingAt.step {p p' : Reading} (h : ReadingAt d b d' buf p)
    (hact : actRead d' b buf p = some (d'', buf', p')) : ReadingAt d b d'' buf' p' := by
  cases p with
  | testing =>
    obtain rfl : d' = d := h
    cases hact
    split_ifs with htag
    · exact ⟨rfl, htag⟩
    · exact ⟨rfl, not_not.mp htag, Nat.zero_le _, buf, mixed_zero.symm⟩
  | testingDirty =>
    obtain ⟨rfl, htag⟩ := h
    cases hact
    split_ifs with hdirty
    · exact ⟨rfl, htag, hdirty⟩
    · refine ⟨?_, htag⟩
      rw [writeBack, if_neg hdirty]
  | evicting =>
    obtain ⟨rfl, htag, hdirty⟩ := h
    cases hact
    exact ⟨evict_eq hdirty, htag⟩
  | fetching =>
    obtain ⟨rfl, htag⟩ := h
    cases hact
    exact ⟨rfl, htag, Nat.zero_le _, buf, mixed_zero.symm⟩
  | copying j =>
    obtain ⟨hd, htag, hle, old, rfl⟩ := h
    rw [actRead] at hact
    split_ifs at hact with hj <;> cases hact
    · exact ⟨hd, htag, hj, old, setByte_mixed hj⟩
    · obtain rfl : j = blockSize := by omega
      exact ⟨hd, htag, mixed_all⟩
  | tagging =>
    obtain ⟨rfl, htag, rfl⟩ := h
    cases hact
    exact ⟨rfl, htag, rfl⟩
  | marking =>
    obtain ⟨rfl, htag, rfl⟩ := h
    cases hact
    simp [ReadingAt, readCached, if_pos htag, setDirty, setTag, fetch]
  | copyingHit j =>
    obtain ⟨rfl, htag, hle, old, rfl⟩ := h
    rw [actRead] at hact
    split_ifs at hact with hj <;> cases hact
    · exact ⟨rfl, htag, hj, old, setByte_mixed hj⟩
    · obtain rfl : j = blockSize := by omega
      rw [mixed_all]
      simp [ReadingAt, readCached, htag]
  | unlocking => cases hact

end Alone

section Whole

variable {ι : Type*} {i : ι} {x₀ x : Locked} {w₀ w : Worker} {d d' : Device} {call : Call}

/-- A call at once. -/
def serve (d : Device) : Call → Device × Option Block
  | .write block buf => (writeCached d block buf, none)
  | .read block => ((readCached d block).1, some (readCached d block).2)

/-- A call is under way alone, from `d`. -/
def Place.Serves (d : Device) (call : Call) (d' : Device) : Place → Prop
  | outside => False
  | writing block buf p => call = .write block buf ∧ WritingAt d block buf d' p
  | reading block buf p => call = .read block ∧ ReadingAt d block d' buf p

lemma start_serves : call.start.Serves d call d := by
  cases call <;> exact ⟨rfl, rfl⟩

lemma inside_serves (h : Inside act Critical i x₀ w₀ x w) :
    ∃ call, w₀ = ⟨call :: w.todo, w.results, .outside⟩ ∧ x₀.lockCache = false ∧
      w.place.Serves x₀.dev call x.dev := by
  induction h with
  | enter hact hout hin =>
    cases stepped_of_act hact with
    | @enters call todo hplace htodo hfree =>
      refine ⟨call, ?_, hfree, start_serves⟩
      cases w₀
      simp_all
    | writes hplace _ => exact absurd (critical_iff.mpr (by simp [hplace])) hout
    | reads hplace _ => exact absurd (critical_iff.mpr (by simp [hplace])) hout
    | wrote hplace => exact absurd hin Bool.false_ne_true
    | read hplace => exact absurd hin Bool.false_ne_true
  | stay _ hact hin ih =>
    obtain ⟨call, hw₀, hfree, hserves⟩ := ih
    cases stepped_of_act hact with
    | enters hplace =>
      rw [hplace] at hserves
      exact hserves.elim
    | writes hplace hwrite =>
      rw [hplace] at hserves
      exact ⟨call, hw₀, hfree, hserves.1, hserves.2.step hwrite⟩
    | reads hplace hread =>
      rw [hplace] at hserves
      exact ⟨call, hw₀, hfree, hserves.1, hserves.2.step hread⟩
    | wrote hplace => exact absurd hin Bool.false_ne_true
    | read hplace => exact absurd hin Bool.false_ne_true

/-- A call that is alone from its lock to its return is a call at once. -/
lemma whole_serves (h : Whole act Critical i x₀ w₀ x w) :
    ∃ call, w₀ = ⟨call :: w.todo, w₀.results, .outside⟩ ∧ x = ⟨(serve x₀.dev call).1, false⟩ ∧
      w = ⟨w.todo, w₀.results ++ [(serve x₀.dev call).2], .outside⟩ := by
  obtain ⟨hinside, hact, hout⟩ := h
  obtain ⟨call, rfl, -, hserves⟩ := inside_serves hinside
  cases stepped_of_act hact with
  | enters => exact absurd (start_isInside _) hout
  | writes => exact absurd rfl hout
  | reads => exact absurd rfl hout
  | wrote hplace =>
    rw [hplace] at hserves
    obtain ⟨rfl, hd⟩ := hserves
    exact ⟨_, rfl, congrArg (Locked.mk · false) hd, rfl⟩
  | read hplace =>
    rw [hplace] at hserves
    obtain ⟨rfl, hd⟩ := hserves
    obtain ⟨hdev, hbuf⟩ := Prod.mk.inj hd
    refine ⟨_, rfl, congrArg (Locked.mk · false) hdev, ?_⟩
    rw [hbuf]
    rfl

abbrev Steps : ι → ℕ → Locked → Worker → Locked → Worker → Prop := Solo act fun _ _ _ => True

/-- A bound on the steps that a call still takes under the lock. -/
def Writing.left : Writing → ℕ
  | testing => blockSize + 5
  | evicting => blockSize + 4
  | copying i => blockSize - i + 3
  | tagging => 2
  | marking => 1
  | unlocking => 0

def Reading.left : Reading → ℕ
  | testing => blockSize + 7
  | testingDirty => blockSize + 6
  | evicting => blockSize + 5
  | fetching => blockSize + 4
  | copying j => blockSize - j + 3
  | tagging => 2
  | marking => 1
  | copyingHit j => blockSize - j + 1
  | unlocking => 0

def Place.left : Place → ℕ
  | outside => 0
  | writing _ _ p => p.left
  | reading _ _ p => p.left

lemma actWrite_goes (d : Device) (b : ℤ) (buf : Block) {p : Writing} (hp : p ≠ .unlocking) :
    ∃ d' p', actWrite d b buf p = some (d', p') ∧ p'.left < p.left := by
  cases p with
  | testing =>
    refine ⟨_, _, rfl, ?_⟩
    split_ifs <;> simp [Writing.left]
  | evicting => exact ⟨_, _, rfl, by simp [Writing.left]⟩
  | copying k =>
    by_cases hk : k < blockSize
    · exact ⟨_, _, dif_pos hk, by simp only [Writing.left]; omega⟩
    · exact ⟨_, _, dif_neg hk, by simp only [Writing.left]; omega⟩
  | tagging => exact ⟨_, _, rfl, by simp [Writing.left]⟩
  | marking => exact ⟨_, _, rfl, by simp [Writing.left]⟩
  | unlocking => exact absurd rfl hp

lemma actRead_goes (d : Device) (b : ℤ) (buf : Block) {p : Reading} (hp : p ≠ .unlocking) :
    ∃ d' buf' p', actRead d b buf p = some (d', buf', p') ∧ p'.left < p.left := by
  cases p with
  | testing =>
    refine ⟨_, _, _, rfl, ?_⟩
    split_ifs <;> simp [Reading.left]
  | testingDirty =>
    refine ⟨_, _, _, rfl, ?_⟩
    split_ifs <;> simp [Reading.left]
  | evicting => exact ⟨_, _, _, rfl, by simp [Reading.left]⟩
  | fetching => exact ⟨_, _, _, rfl, by simp [Reading.left]⟩
  | copying k =>
    by_cases hk : k < blockSize
    · exact ⟨_, _, _, dif_pos hk, by simp only [Reading.left]; omega⟩
    · exact ⟨_, _, _, dif_neg hk, by simp only [Reading.left]; omega⟩
  | tagging => exact ⟨_, _, _, rfl, by simp [Reading.left]⟩
  | marking => exact ⟨_, _, _, rfl, by simp [Reading.left]⟩
  | copyingHit k =>
    by_cases hk : k < blockSize
    · exact ⟨_, _, _, dif_pos hk, by simp only [Reading.left]; omega⟩
    · exact ⟨_, _, _, dif_neg hk, by simp only [Reading.left]; omega⟩
  | unlocking => exact absurd rfl hp

/-- Under the lock a call always has a next step, which brings it nearer to its end. -/
lemma act_goes (hx : x.lockCache = true) (hin : Critical w) : ∃ x' w',
    act i x w = some (x', w') ∧
      (Critical w' → x'.lockCache = true ∧ w'.place.left < w.place.left) := by
  obtain ⟨todo, results, place⟩ := w
  cases place with
  | outside => exact absurd hin Bool.false_ne_true
  | writing b buf p =>
    by_cases hp : p = .unlocking
    · subst hp
      exact ⟨_, _, rfl, fun hin' => absurd hin' Bool.false_ne_true⟩
    · obtain ⟨d', p', hact, hleft⟩ := actWrite_goes x.dev b buf hp
      have hstep : act i x ⟨todo, results, .writing b buf p⟩ =
          some (⟨d', x.lockCache⟩, ⟨todo, results, .writing b buf p'⟩) := by
        cases p <;> first | exact absurd rfl hp | simp only [act, hact, Option.map_some]
      exact ⟨_, _, hstep, fun _ => ⟨hx, hleft⟩⟩
  | reading b buf p =>
    by_cases hp : p = .unlocking
    · subst hp
      exact ⟨_, _, rfl, fun hin' => absurd hin' Bool.false_ne_true⟩
    · obtain ⟨d', buf', p', hact, hleft⟩ := actRead_goes x.dev b buf hp
      have hstep : act i x ⟨todo, results, .reading b buf p⟩ =
          some (⟨d', x.lockCache⟩, ⟨todo, results, .reading b buf' p'⟩) := by
        cases p <;> first | exact absurd rfl hp | simp only [act, hact, Option.map_some]
      exact ⟨_, _, hstep, fun _ => ⟨hx, hleft⟩⟩

/-- A call that has the lock comes to its end when no other thread is around. -/
lemma inside_ends (h : Inside act Critical i x₀ w₀ x w) (hx : x.lockCache = true)
    (hin : Critical w) :
    ∃ n x' w', Steps i n x w x' w' ∧ Whole act Critical i x₀ w₀ x' w' := by
  induction hleft : w.place.left using Nat.strong_induction_on generalizing x w with
  | _ left ih =>
    obtain ⟨x₁, w₁, hact, hgoes⟩ := act_goes (i := i) hx hin
    by_cases hin₁ : Critical w₁
    · obtain ⟨hx₁, hless⟩ := hgoes hin₁
      obtain ⟨n, x', w', hsteps, hwhole⟩ :=
        ih _ (hleft ▸ hless) (h.stay hact hin₁) hx₁ hin₁ rfl
      exact ⟨n + 1, x', w', .step trivial hact hsteps, hwhole⟩
    · exact ⟨1, x₁, w₁, .step trivial hact (.refl _ _), .leave h hact hin₁⟩

/-- A call that finds the lock free comes to its end alone, and is a call at once. -/
theorem call_alone (i : ι) (d : Device) (call : Call) (todo : List Call)
    (results : List (Option Block)) :
    ∃ n, Steps i n ⟨d, false⟩ ⟨call :: todo, results, .outside⟩ ⟨(serve d call).1, false⟩
      ⟨todo, results ++ [(serve d call).2], .outside⟩ := by
  have hact : act i ⟨d, false⟩ ⟨call :: todo, results, .outside⟩ =
      some (⟨d, true⟩, ⟨todo, results, call.start⟩) := rfl
  have hin : Critical ⟨todo, results, call.start⟩ := start_isInside call
  have henter := Inside.enter hact Bool.false_ne_true hin
  obtain ⟨n, x', w', hsteps, hwhole⟩ := inside_ends henter rfl hin
  obtain ⟨call', hw₀, hx', hw'⟩ := whole_serves hwhole
  obtain ⟨hcall, htodo⟩ := List.cons.inj (Worker.mk.inj hw₀).1
  rw [← hcall] at hx' hw'
  rw [← htodo] at hw'
  refine ⟨n + 1, .step trivial hact ?_⟩
  rwa [← hx', ← hw']

end Whole

section Blocks

abbrev Blocks := ℤ → Block

variable {ι : Type*}

/-- A call on an array of blocks. -/
def Blocks.answer (m : Blocks) : Call → Blocks × Option Block
  | .write block buf => (Function.update m block buf, none)
  | .read block => (m, some (m block))

/-- The call of a thread, with the thread in the reply. -/
def onBlocks (m : Blocks) (c : ι × Call) : Option (Blocks × (ι × Option Block)) :=
  some ((m.answer c.2).1, (c.1, (m.answer c.2).2))

/-- What belongs to a thread. -/
def ofThread [DecidableEq ι] {β : Type*} (i : ι) (l : List (ι × β)) : List β :=
  l.filterMap fun c => if c.1 = i then some c.2 else none

lemma ofThread_append [DecidableEq ι] {β : Type*} {i : ι} {l l' : List (ι × β)} :
    ofThread i (l ++ l') = ofThread i l ++ ofThread i l' := List.filterMap_append

lemma ofThread_self [DecidableEq ι] {β : Type*} {i : ι} {x : β} : ofThread i [(i, x)] = [x] := by
  simp [ofThread]

lemma ofThread_other [DecidableEq ι] {β : Type*} {i j : ι} {x : β} (h : j ≠ i) :
    ofThread i [(j, x)] = [] := by
  simp [ofThread, h]

/-- The device holds the blocks of an array. -/
structure HoldsBlocks (d : Device) (m : Blocks) : Prop where
  ok : CacheOk d
  view : ∀ b, ValidBlock b → cachedView d b = m b

/-- A call answers from the array that the device holds. -/
lemma HoldsBlocks.serve {d : Device} {m : Blocks} (h : HoldsBlocks d m) {call : Call}
    (hb : ValidBlock call.block) :
    HoldsBlocks (serve d call).1 (m.answer call).1 ∧ (serve d call).2 = (m.answer call).2 := by
  cases call with
  | write block buf =>
    refine ⟨⟨writeCached_ok h.ok hb buf, fun b hb' => ?_⟩, rfl⟩
    change cachedView (writeCached d block buf) b = Function.update m block buf b
    have hview : cachedView (writeCached d block buf) b =
        if b = block then buf else cachedView d b :=
      writeCached_view h.ok hb hb' buf
    rw [hview, Function.update_apply, h.view b hb']
  | read block =>
    refine ⟨⟨readCached_ok h.ok hb, fun b hb' => ?_⟩, ?_⟩
    · exact (readCached_view h.ok hb hb').trans (h.view b hb')
    · exact congrArg some ((readCached_val h.ok hb).trans (h.view block hb))

end Blocks

section Runs

variable {ι : Type*} [DecidableEq ι] {d : Device} {prog : ι → List Call}
variable {x y : Threads Locked Worker ι} {order : List (ι × Call)}
  {log : List (ι × Worker × Worker)}

/-- The call that a critical section makes. -/
def madeIn (e : ι × Worker × Worker) : Option (ι × Call) := e.2.1.todo.head?.map fun c => (e.1, c)

/-- Threads between calls: the calls in `order` have been made one after the other on an array
of blocks. -/
structure Between (d : Device) (prog : ι → List Call) (y : Threads Locked Worker ι)
    (order : List (ι × Call)) (m : Blocks) (replies : List (ι × Option Block)) : Prop where
  run : Machine.run onBlocks (cachedView d) order = some (m, replies)
  holds : HoldsBlocks y.shared.dev m
  outside : ∀ i, (y.locals i).place = .outside
  calls : ∀ i, prog i = ofThread i order ++ (y.locals i).todo
  results : ∀ i, (y.locals i).results = ofThread i replies

lemma Between.whole {m : Blocks} {replies : List (ι × Option Block)}
    (h : Between d prog y order m replies) (hprog : ∀ i, ∀ c ∈ prog i, ValidBlock c.block) {i : ι}
    {s : Locked} {t : Worker} (hwhole : Whole act Critical i y.shared (y.locals i) s t) :
    ∃ m' replies', Between d prog ⟨s, Function.update y.locals i t⟩
      (order ++ [(i, y.locals i, t)].filterMap madeIn) m' replies' := by
  obtain ⟨call, hw, rfl, ht⟩ := whole_serves hwhole
  have hcalls : prog i = ofThread i order ++ call :: t.todo := by rw [h.calls i, hw]
  have hvalid : ValidBlock call.block := hprog i call (by simp [hcalls])
  obtain ⟨hholds, hreply⟩ := h.holds.serve hvalid
  have hmade : [(i, y.locals i, t)].filterMap madeIn = [(i, call)] := by
    rw [hw]
    rfl
  rw [hmade]
  have hresults : t.results = ofThread i replies ++ [(m.answer call).2] := by
    rw [← h.results i, ← hreply]
    exact congrArg Worker.results ht
  have hrun : Machine.run onBlocks m [(i, call)] =
      some ((m.answer call).1, [(i, (m.answer call).2)]) := rfl
  refine ⟨(m.answer call).1, replies ++ [(i, (m.answer call).2)],
    run_append.mpr ⟨m, replies, _, h.run, hrun, rfl⟩, hholds, fun j => ?_, fun j => ?_,
    fun j => ?_⟩ <;> dsimp only <;> by_cases hj : j = i
  · rw [hj, Function.update_self]
    exact congrArg Worker.place ht
  · rw [Function.update_of_ne hj]
    exact h.outside j
  · rw [hj, Function.update_self, ofThread_append, ofThread_self, List.append_assoc]
    exact hcalls
  · rw [Function.update_of_ne hj, ofThread_append, ofThread_other (Ne.symm hj), List.append_nil]
    exact h.calls j
  · rw [hj, Function.update_self, ofThread_append, ofThread_self]
    exact hresults
  · rw [Function.update_of_ne hj, ofThread_append, ofThread_other (Ne.symm hj), List.append_nil]
    exact h.results j

/-- Whole calls one after the other are calls on an array of blocks. -/
lemma between_of_serially (hprog : ∀ i, ∀ c ∈ prog i, ValidBlock c.block)
    (hx : Between d prog x [] (cachedView d) []) (h : Serially act Critical x log y) :
    ∃ m replies, Between d prog y (log.filterMap madeIn) m replies := by
  induction h with
  | nil => exact ⟨_, _, hx⟩
  | step _ hact hout ih =>
    obtain ⟨m, replies, hy⟩ := ih
    refine absurd (critical_of_act hact ?_) hout
    exact critical_iff.not.mpr (not_not_intro (hy.outside _))
  | whole _ hwhole ih =>
    obtain ⟨m, replies, hy⟩ := ih
    rw [List.filterMap_append]
    exact hy.whole hprog hwhole

/-- The calls in `order`, made one after the other on an array of blocks, explain the threads:
each has made the first of its calls and has their results, and the device holds the array
whenever no call is under way. -/
structure Explained (d : Device) (prog : ι → List Call) (x : Threads Locked Worker ι)
    (order : List (ι × Call)) (m : Blocks) (replies : List (ι × Option Block)) : Prop where
  run : Machine.run onBlocks (cachedView d) order = some (m, replies)
  calls : ∀ i, ofThread i order <+: prog i
  results : ∀ i, (x.locals i).results = ofThread i replies
  holds : x.shared.lockCache = false → HoldsBlocks x.shared.dev m

lemma Between.explained {m : Blocks} {replies : List (ι × Option Block)}
    (h : Between d prog y order m replies) (hbehind : Behind act Critical y x)
    (hx : Exclusive Locked.lockCache Critical x) : Explained d prog x order m replies := by
  refine ⟨h.run, fun i => ⟨_, (h.calls i).symm⟩, fun i => ?_, fun hfree => ?_⟩
  · rw [← h.results i]
    by_cases hin : Critical (x.locals i)
    · obtain ⟨call, hw, -⟩ := inside_serves (hbehind.inside i hin)
      exact (congrArg Worker.results hw).symm
    · rw [hbehind.outside i hin]
  · have hnone : ∀ i, ¬Critical (x.locals i) := by
      intro i hi
      have hheld := hx.held.mpr ⟨i, hi⟩
      rw [hfree] at hheld
      cases hheld
    rw [← hbehind.alone hnone]
    exact h.holds

variable (d prog) in
/-- The threads at the start. -/
def start : Threads Locked Worker ι := ⟨⟨d, false⟩, fun i => ⟨prog i, [], .outside⟩⟩

lemma start_between (hd : CacheOk d) :
    Between d prog (start d prog) [] (cachedView d) [] :=
  ⟨rfl, ⟨hd, fun _ _ => rfl⟩, fun _ => rfl, fun _ => rfl, fun _ => rfl⟩

/-- Whatever the order of their steps, calls of `write_cached` and `read_cached` from any number
of threads answer as calls made one after the other on an array of blocks, where each call comes
after those that had returned before it began. -/
theorem calls_linearizable (d : Device) (hd : CacheOk d) (prog : ι → List Call)
    (hprog : ∀ i, ∀ c ∈ prog i, ValidBlock c.block) (schedule : List ι)
    (x : Threads Locked Worker ι) (us : List Unit)
    (hrun : Machine.run (advance act) (start d prog) schedule = some (x, us)) :
    ∃ order m replies, Explained d prog x order m replies ∧
      ∀ before after x₁ us₁, schedule = before ++ after →
        Machine.run (advance act) (start d prog) before = some (x₁, us₁) →
        ∃ first rest m₁ replies₁,
          order = first ++ rest ∧ Explained d prog x₁ first m₁ replies₁ := by
  have hout : ∀ i, ¬Critical ((start d prog).locals i) := fun i => Bool.false_ne_true
  have hexplained : ∀ {schedule x us},
      Machine.run (advance act) (start d prog) schedule = some (x, us) → ∃ m replies,
        Explained d prog x ((sections act Critical (start d prog) (start d prog)
          schedule).filterMap madeIn) m replies := by
    intro schedule x us hrun
    obtain ⟨y, hlog, hbehind, hx⟩ := serially_of_run guarded (exclusive_start rfl hout)
      (behind_start hout) .nil hrun
    rw [List.nil_append] at hlog
    obtain ⟨m, replies, hy⟩ := between_of_serially hprog (start_between hd) hlog
    exact ⟨m, replies, hy.explained hbehind hx⟩
  obtain ⟨m, replies, h⟩ := hexplained hrun
  refine ⟨_, m, replies, h, ?_⟩
  rintro before after x₁ us₁ rfl hbefore
  obtain ⟨m₁, replies₁, h₁⟩ := hexplained hbefore
  obtain ⟨y', happend⟩ : ∃ y', sections act Critical (start d prog) (start d prog)
      (before ++ after) = _ ++ sections act Critical y' x₁ after := sections_append hbefore
  rw [happend, List.filterMap_append]
  exact ⟨_, _, m₁, replies₁, rfl, h₁⟩

/-- Two threads that each write block 0 and read it. -/
def twoCalls (i : Fin 2) : List Call :=
  if i.val = 0 then [.write 0 fun _ => 7, .read 0] else [.read 0, .write 0 fun _ => 9]

/-- The second thread comes between the two calls of the first, and each reads what the other
one wrote. -/
theorem calls_linearizable_write : ∃ (schedule : List (Fin 2)) (x : Threads Locked Worker (Fin 2))
    (us : List Unit) (order : List (Fin 2 × Call)) (m : Blocks)
    (replies : List (Fin 2 × Option Block)),
    Machine.run (advance act) (start (initCache blankDevice) twoCalls) schedule = some (x, us) ∧
      (x.locals 0).results = [none, some fun _ => 9] ∧
      (x.locals 1).results = [some fun _ => 7, none] ∧
      Explained (initCache blankDevice) twoCalls x order m replies := by
  have hok : CacheOk (initCache blankDevice) := initCache_ok fun _ => rfl
  have hb : ValidBlock 0 := ⟨le_rfl, by decide⟩
  have hvalid : ∀ i, ∀ c ∈ twoCalls i, ValidBlock c.block := by
    intro i c hc
    fin_cases i <;> rcases List.mem_cons.mp hc with rfl | hc <;>
      first | exact hb | (obtain rfl := List.mem_singleton.mp hc; exact hb)
  have hwritten {d : Device} (hd : CacheOk d) (buf : Block) :
      CacheOk (writeCached d 0 buf) ∧ (readCached (writeCached d 0 buf) 0).2 = buf := by
    have hd' := writeCached_ok hd hb buf
    rw [readCached_val hd' hb, writeCached_view hd hb hb, if_pos rfl]
    exact ⟨hd', rfl⟩
  -- the write of the first thread, both calls of the second, the read of the first
  obtain ⟨n₁, h₁⟩ := call_alone (0 : Fin 2) (initCache blankDevice) (.write 0 fun _ => 7)
    [.read 0] []
  obtain ⟨hok₁, hread₁⟩ := hwritten hok fun _ => 7
  obtain ⟨n₂, h₂⟩ := call_alone (1 : Fin 2) (writeCached (initCache blankDevice) 0 fun _ => 7)
    (.read 0) [.write 0 fun _ => 9] []
  obtain ⟨n₃, h₃⟩ := call_alone (1 : Fin 2)
    (readCached (writeCached (initCache blankDevice) 0 fun _ => 7) 0).1 (.write 0 fun _ => 9) []
    [some (readCached (writeCached (initCache blankDevice) 0 fun _ => 7) 0).2]
  obtain ⟨-, hread₃⟩ := hwritten (readCached_ok hok₁ hb) fun _ => 9
  obtain ⟨n₄, h₄⟩ := call_alone (0 : Fin 2)
    (writeCached (readCached (writeCached (initCache blankDevice) 0 fun _ => 7) 0).1 0 fun _ => 9)
    (.read 0) [] [none]
  have hrun := ((((h₁.trace (l := fun i => ⟨twoCalls i, [], .outside⟩) rfl).append
    (h₂.trace rfl)).append (h₃.trace rfl)).append (h₄.trace rfl)).run
  obtain ⟨order, m, replies, h, -⟩ := calls_linearizable _ hok twoCalls hvalid _ _ _ hrun
  refine ⟨_, _, _, order, m, replies, hrun, ?_, ?_, h⟩
  · exact congrArg (fun x => [none, some x]) hread₃
  · exact congrArg (fun x => [some x, none]) hread₁

end Runs

end OsAssignments.ConcurrentCache
