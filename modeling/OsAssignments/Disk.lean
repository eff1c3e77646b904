import Mathlib.Logic.Function.Basic
import Mathlib.Tactic

/-!
# The disk image and its block transfers

`readBlock` and `writeBlock` move one block between a page-aligned buffer and the
image. A block past the end of the image file reads as zeros, and a write there
extends the file, so the image is total. `pread` and `pwrite` refuse a negative
offset; any other transfer fails when the fault pattern says so, which is asked
by the position of the transfer in the log of all transfers.
-/
namespace OsAssignments

/-- `BLOCK_SIZE`. -/
abbrev blockSize : ℕ := 4096

instance neZero_blockSize : NeZero blockSize := ⟨by decide⟩

/-- `OBJECT_BLOCK`, the blocks of the object table. -/
def objectBlock : ℕ := 22528

lemma objectBlock_eq : objectBlock = 22528 := rfl

/-- `INODE_BIT_BLOCKS`. -/
def inodeBitBlocks : ℕ := 31

lemma inodeBitBlocks_eq : inodeBitBlocks = 31 := rfl

/-- `DATA_BLOCKS`, the blocks of the data bitmap. -/
def dataBlocks : ℕ := 256

lemma dataBlocks_eq : dataBlocks = 256 := rfl

/-- `WRITE_OFFSET`, the first data block of the image. -/
def writeOffset : ℤ := 31 + 256 + 22528

lemma writeOffset_eq : writeOffset = 22815 := rfl

abbrev Block := Fin blockSize → UInt8

inductive Transfer where
  | read (blockOffset : ℤ)
  | write (blockOffset : ℤ)
  deriving DecidableEq

structure Disk where
  image : ℤ → Block
  fails : ℕ → Bool
  /-- Every transfer requested so far, the last one first. -/
  log : List Transfer

namespace Disk

/-- Whether the transfer about to be requested fails. -/
def refuses (d : Disk) (blockOffset : ℤ) : Bool := blockOffset < 0 || d.fails d.log.length

def record (d : Disk) (t : Transfer) : Disk := { d with log := t :: d.log }

/-- No transfer ever fails. -/
def Healthy (d : Disk) : Prop := ∀ n, d.fails n = false

end Disk

def readBlock (d : Disk) (blockOffset : ℤ) (buf : Block) : Disk × Block × ℤ :=
  if d.refuses blockOffset then (d.record (.read blockOffset), buf, -1)
  else (d.record (.read blockOffset), d.image blockOffset, 0)

def writeBlock (d : Disk) (blockOffset : ℤ) (buf : Block) : Disk × ℤ :=
  if d.refuses blockOffset then (d.record (.write blockOffset), -1)
  else ({ d.record (.write blockOffset) with image := Function.update d.image blockOffset buf }, 0)

@[simp] theorem readBlock_image (d : Disk) (p : ℤ) (buf : Block) :
    (readBlock d p buf).1.image = d.image := by
  unfold readBlock
  split_ifs <;> rfl

@[simp] theorem readBlock_fails (d : Disk) (p : ℤ) (buf : Block) :
    (readBlock d p buf).1.fails = d.fails := by
  unfold readBlock
  split_ifs <;> rfl

@[simp] theorem readBlock_log (d : Disk) (p : ℤ) (buf : Block) :
    (readBlock d p buf).1.log = .read p :: d.log := by
  unfold readBlock
  split_ifs <;> rfl

@[simp] theorem writeBlock_fails (d : Disk) (p : ℤ) (buf : Block) :
    (writeBlock d p buf).1.fails = d.fails := by
  unfold writeBlock
  split_ifs <;> rfl

@[simp] theorem writeBlock_log (d : Disk) (p : ℤ) (buf : Block) :
    (writeBlock d p buf).1.log = .write p :: d.log := by
  unfold writeBlock
  split_ifs <;> rfl

theorem Disk.Healthy.not_refuses {d : Disk} (h : d.Healthy) {p : ℤ} (hp : 0 ≤ p) :
    d.refuses p = false := by
  simp [Disk.refuses, h d.log.length, hp]

theorem readBlock_val {d : Disk} (h : d.Healthy) {p : ℤ} (hp : 0 ≤ p) (buf : Block) :
    (readBlock d p buf).2.1 = d.image p := by
  simp [readBlock, h.not_refuses hp]

theorem writeBlock_image {d : Disk} (h : d.Healthy) {p : ℤ} (hp : 0 ≤ p) (buf : Block) :
    (writeBlock d p buf).1.image = Function.update d.image p buf := by
  simp [writeBlock, h.not_refuses hp]

theorem Disk.Healthy.readBlock {d : Disk} (h : d.Healthy) (p : ℤ) (buf : Block) :
    (OsAssignments.readBlock d p buf).1.Healthy := by
  intro n
  rw [readBlock_fails]
  exact h n

theorem Disk.Healthy.writeBlock {d : Disk} (h : d.Healthy) (p : ℤ) (buf : Block) :
    (OsAssignments.writeBlock d p buf).1.Healthy := by
  intro n
  rw [writeBlock_fails]
  exact h n

/-- A write leaves every other block of the image alone, failed or not. -/
theorem writeBlock_image_ne (d : Disk) {p q : ℤ} (hq : q ≠ p) (buf : Block) :
    (writeBlock d p buf).1.image q = d.image q := by
  unfold writeBlock
  split_ifs
  · rfl
  · exact Function.update_of_ne hq _ _

end OsAssignments
