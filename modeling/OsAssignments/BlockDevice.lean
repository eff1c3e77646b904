import Mathlib.Logic.Function.Basic
import Mathlib.Tactic

/-!
# Block devices

A block device is known by its view: the contents a read of each block would
return. Reads leave the view alone, a write replaces one block of it, and a drop
gives up the contents of one block. An implementation may keep the contents
wherever it likes, as long as an invariant of its own ties them to the view.
-/
namespace OsAssignments

/-- Operations on states `σ` that implement blocks `β` at the valid addresses of
`ι`. The laws are fields, so every value of this type is a correct device. -/
structure BlockDevice (σ ι β : Type*) where
  Valid : ι → Prop
  Ok : σ → Prop
  view : σ → ι → β
  read : σ → ι → σ × β
  write : σ → ι → β → σ
  drop : σ → ι → σ
  read_ok : ∀ {s i}, Ok s → Valid i → Ok (read s i).1
  read_val : ∀ {s i}, Ok s → Valid i → (read s i).2 = view s i
  read_view : ∀ {s i j}, Ok s → Valid i → Valid j → view (read s i).1 j = view s j
  write_ok : ∀ {s i x}, Ok s → Valid i → Ok (write s i x)
  write_self : ∀ {s i x}, Ok s → Valid i → view (write s i x) i = x
  write_ne : ∀ {s i j x}, Ok s → Valid i → Valid j → j ≠ i → view (write s i x) j = view s j
  drop_ok : ∀ {s i}, Ok s → Valid i → Ok (drop s i)
  drop_ne : ∀ {s i j}, Ok s → Valid i → Valid j → j ≠ i → view (drop s i) j = view s j

namespace BlockDevice

variable {σ ι β : Type*}

inductive Op (ι β : Type*) where
  | read (i : ι)
  | write (i : ι) (x : β)
  | drop (i : ι)

/-- The block an operation is about. -/
def Op.block : Op ι β → ι
  | .read i => i
  | .write i _ => i
  | .drop i => i

/-- Whether an operation leaves the contents of `i` as they are. -/
def Op.Keeps (i : ι) : Op ι β → Prop
  | .read _ => True
  | .write j _ => j ≠ i
  | .drop j => j ≠ i

lemma Op.keeps_of_block_ne {i : ι} {op : Op ι β} (h : op.block ≠ i) : op.Keeps i := by
  cases op with
  | read j => trivial
  | write j x => exact h
  | drop j => exact h

variable (d : BlockDevice σ ι β)

def step (s : σ) : Op ι β → σ
  | .read i => (d.read s i).1
  | .write i x => d.write s i x
  | .drop i => d.drop s i

def run (s : σ) (ops : List (Op ι β)) : σ := ops.foldl d.step s

@[simp] theorem run_cons (s : σ) (op : Op ι β) (ops : List (Op ι β)) :
    d.run s (op :: ops) = d.run (d.step s op) ops := rfl

theorem run_append (s : σ) (ops ops' : List (Op ι β)) :
    d.run s (ops ++ ops') = d.run (d.run s ops) ops' := List.foldl_append

variable {d}

theorem step_ok {s : σ} (hs : d.Ok s) {op : Op ι β} (hv : d.Valid op.block) :
    d.Ok (d.step s op) := by
  cases op with
  | read i => exact d.read_ok hs hv
  | write i x => exact d.write_ok hs hv
  | drop i => exact d.drop_ok hs hv

/-- One operation changes the view of at most its own block. -/
theorem step_view {s : σ} (hs : d.Ok s) {op : Op ι β} (hv : d.Valid op.block) {i : ι}
    (hi : d.Valid i) (hk : op.Keeps i) : d.view (d.step s op) i = d.view s i := by
  cases op with
  | read j => exact d.read_view hs hv hi
  | write j x => exact d.write_ne hs hv hi (Ne.symm hk)
  | drop j => exact d.drop_ne hs hv hi (Ne.symm hk)

theorem run_ok {s : σ} (hs : d.Ok s) {ops : List (Op ι β)} (hv : ∀ op ∈ ops, d.Valid op.block) :
    d.Ok (d.run s ops) := by
  induction ops generalizing s with
  | nil => exact hs
  | cons op ops ih =>
    exact ih (step_ok hs (hv op (by simp))) fun o ho => hv o (by simp [ho])

/-- A block that is neither written nor dropped keeps its contents. -/
theorem run_view {s : σ} (hs : d.Ok s) {ops : List (Op ι β)} (hv : ∀ op ∈ ops, d.Valid op.block)
    {i : ι} (hi : d.Valid i) (hk : ∀ op ∈ ops, op.Keeps i) :
      d.view (d.run s ops) i = d.view s i := by
  induction ops generalizing s with
  | nil => rfl
  | cons op ops ih =>
    rw [run_cons, ih (step_ok hs (hv op (by simp))) (fun o ho => hv o (by simp [ho]))
      (fun o ho => hk o (by simp [ho])), step_view hs (hv op (by simp)) hi (hk op (by simp))]

/-- The last write decides what a block holds, as long as it is not dropped. -/
theorem run_view_last {s : σ} (hs : d.Ok s) {pre post : List (Op ι β)} {i : ι} {x : β}
    (hv : ∀ op ∈ pre ++ .write i x :: post, d.Valid op.block) (hk : ∀ op ∈ post, op.Keeps i) :
    d.view (d.run s (pre ++ .write i x :: post)) i = x := by
  have hpre : d.Ok (d.run s pre) := run_ok hs fun op ho => hv op (by simp [ho])
  have hi : d.Valid i := hv (.write i x) (by simp)
  have hpost : ∀ op ∈ post, d.Valid op.block := fun op ho => hv op (by simp [ho])
  have hstep : d.Ok (d.step (d.run s pre) (.write i x)) := d.write_ok hpre hi
  rw [run_append, run_cons, run_view hstep hpost hi hk]
  exact d.write_self hpre hi

end BlockDevice

end OsAssignments
