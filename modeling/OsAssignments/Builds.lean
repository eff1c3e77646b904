import OsAssignments.CacheRefinement

/-!
# The two builds

`objstore.c` is compiled twice: `objfs` transfers every data block to or from the
disk, `objfs_cached` (with `-DCACHE`) goes through the block cache. Each `#ifdef
CACHE` of the source is one of the three functions below, and both builds are
block devices that leave the table and the bitmaps on the disk alone.
-/
namespace OsAssignments

inductive Build where
  | objfs
  | objfsCached
  deriving DecidableEq

/-- Read data block `b` into a fresh zero page. -/
def loadBlock (build : Build) (d : Device) (b : ℤ) : Device × Block :=
  match build with
  | .objfs =>
    let r := readBlock d.disk (writeOffset + b) (fun _ => 0)
    ({ d with disk := r.1 }, r.2.1)
  | .objfsCached => BlockCache.readCached d b

/-- Write data block `b`. -/
def storeBlock (build : Build) (d : Device) (b : ℤ) (buf : Block) : Device :=
  match build with
  | .objfs => { d with disk := (writeBlock d.disk (writeOffset + b) buf).1 }
  | .objfsCached => BlockCache.writeCached d b buf

/-- Forget data block `b`; only the cached build has something to forget. -/
def dropBlock (build : Build) (d : Device) (b : ℤ) : Device :=
  match build with
  | .objfs => d
  | .objfsCached => BlockCache.findCache d b

namespace Builds

open BlockCache

/-- Without the cache its arrays keep their initial clean state. -/
structure UncachedOk (d : Device) : Prop where
  healthy : d.disk.Healthy
  clean : ∀ o, 0 ≤ o → o < cacheBlocks → d.dirtyCache o = false

lemma position_nonneg {b : ℤ} (hb : ValidBlock b) : 0 ≤ writeOffset + b := by
  have := writeOffset_eq
  have := hb.1
  omega

/-- The uncached build as a block device: the view is the disk. -/
def uncached : BlockDevice Device ℤ Block where
  Valid := ValidBlock
  Ok := UncachedOk
  view := fun d b => d.disk.image (writeOffset + b)
  read := loadBlock .objfs
  write := storeBlock .objfs
  drop := dropBlock .objfs
  read_ok := fun h _ => ⟨h.healthy.readBlock _ _, h.clean⟩
  read_val := fun h hb => readBlock_val h.healthy (position_nonneg hb) _
  read_view := fun _ _ _ => by simp [loadBlock]
  write_ok := fun h _ => ⟨h.healthy.writeBlock _ _, h.clean⟩
  write_self := fun h hb => by
    simp [storeBlock, writeBlock_image h.healthy (position_nonneg hb)]
  write_ne := fun _ _ _ hne => writeBlock_image_ne _ (fun he => hne (add_left_cancel he)) _
  drop_ok := fun h _ => h
  drop_ne := fun _ _ _ _ => rfl

/-- The data blocks of a build. -/
def device : Build → BlockDevice Device ℤ Block
  | .objfs => uncached
  | .objfsCached => BlockCache.device

variable {build : Build} {d : Device} {b b' p : ℤ} {buf : Block}

@[simp] theorem device_valid : (device build).Valid b ↔ ValidBlock b := by cases build <;> rfl

lemma loadBlock_eq : loadBlock build d b = (device build).read d b := by cases build <;> rfl

lemma storeBlock_eq : storeBlock build d b buf = (device build).write d b buf := by
  cases build <;> rfl

lemma dropBlock_eq : dropBlock build d b = (device build).drop d b := by cases build <;> rfl

/-- The blocks a read may ask for: outside the data blocks only the uncached
build is safe, where the transfer is an ordinary one. -/
def Readable (build : Build) (b : ℤ) : Prop := ValidBlock b ∨ build = .objfs

theorem loadBlock_ok (h : (device build).Ok d) (hb : Readable build b) :
    (device build).Ok (loadBlock build d b).1 := by
  rcases hb with hb | rfl
  · rw [loadBlock_eq]
    exact (device build).read_ok h (device_valid.mpr hb)
  · exact ⟨h.healthy.readBlock _ _, h.clean⟩

theorem loadBlock_val (h : (device build).Ok d) (hb : ValidBlock b) :
    (loadBlock build d b).2 = (device build).view d b := by
  rw [loadBlock_eq]
  exact (device build).read_val h (device_valid.mpr hb)

theorem loadBlock_view (h : (device build).Ok d) (hb : Readable build b) (hb' : ValidBlock b') :
    (device build).view (loadBlock build d b).1 b' = (device build).view d b' := by
  rcases hb with hb | rfl
  · rw [loadBlock_eq]
    exact (device build).read_view h (device_valid.mpr hb) (device_valid.mpr hb')
  · simp [loadBlock, device, uncached]

theorem storeBlock_ok (h : (device build).Ok d) (hb : ValidBlock b) :
    (device build).Ok (storeBlock build d b buf) := by
  rw [storeBlock_eq]
  exact (device build).write_ok h (device_valid.mpr hb)

theorem storeBlock_view (h : (device build).Ok d) (hb : ValidBlock b) (hb' : ValidBlock b') :
    (device build).view (storeBlock build d b buf) b' =
      if b' = b then buf else (device build).view d b' := by
  rw [storeBlock_eq]
  split_ifs with he
  · rw [he]
    exact (device build).write_self h (device_valid.mpr hb)
  · exact (device build).write_ne h (device_valid.mpr hb) (device_valid.mpr hb') he

theorem dropBlock_ok (h : (device build).Ok d) (hb : ValidBlock b) :
    (device build).Ok (dropBlock build d b) := by
  rw [dropBlock_eq]
  exact (device build).drop_ok h (device_valid.mpr hb)

theorem dropBlock_view (h : (device build).Ok d) (hb : ValidBlock b) (hb' : ValidBlock b')
    (hne : b' ≠ b) : (device build).view (dropBlock build d b) b' = (device build).view d b' := by
  rw [dropBlock_eq]
  exact (device build).drop_ne h (device_valid.mpr hb) (device_valid.mpr hb') hne

/-- A block written through the cache and dropped again reads as before the write. -/
theorem dropped_view (h : (device .objfsCached).Ok d) (hb : ValidBlock b) (buf : Block) :
    (device .objfsCached).view (dropBlock .objfsCached (storeBlock .objfsCached d b buf) b) b =
      (device .objfsCached).view d b :=
  BlockCache.findCache_writeCached h hb buf

section Low

/-- An eviction goes to a data block. -/
lemma writeBack_low (h : CacheOk d) (hp : p < writeOffset) :
    (writeBack d (b % cacheBlocks)).disk.image p = d.disk.image p := by
  obtain ⟨hlo, hhi⟩ := slot_bounds b
  refine writeBack_image_ne fun hd he => ?_
  have htag := h.dirty _ hlo hhi hd
  have hmul := mul_nonneg htag (show 0 ≤ cacheBlocks by decide)
  omega

/-- Storing a data block changes no block below the data blocks. -/
theorem storeBlock_low (h : (device build).Ok d) (hb : ValidBlock b) (hp : p < writeOffset) :
    (storeBlock build d b buf).disk.image p = d.disk.image p := by
  cases build with
  | objfs => exact writeBlock_image_ne _ (by have := hb.1; omega) _
  | objfsCached =>
    simp only [storeBlock, writeCached_eq hb]
    exact writeBack_low h hp

theorem loadBlock_low (h : (device build).Ok d) (hb : Readable build b) (hp : p < writeOffset) :
    (loadBlock build d b).1.disk.image p = d.disk.image p := by
  cases build with
  | objfs => simp [loadBlock]
  | objfsCached =>
    have hb : ValidBlock b := hb.resolve_right (by decide)
    by_cases ht : d.cacheArray (b % cacheBlocks) = b / cacheBlocks
    · simp only [loadBlock, readCached_hit hb ht]
    · simp only [loadBlock, readCached_miss hb ht, refill, readBlock_image]
      exact writeBack_low h hp

@[simp] theorem dropBlock_disk : (dropBlock build d b).disk = d.disk := by
  cases build with
  | objfs => rfl
  | objfsCached =>
    simp only [dropBlock, findCache]
    split_ifs <;> rfl

end Low

section Foreign

/-- Transfers that leave the data blocks alone are invisible to a build. -/
theorem foreign_ok (h : (device build).Ok d) {disk : Disk} (hh : disk.Healthy)
    (hsame : ∀ b, ValidBlock b →
      disk.image (writeOffset + b) = d.disk.image (writeOffset + b)) :
    (device build).Ok { d with disk := disk } := by
  cases build with
  | objfs => exact ⟨hh, h.clean⟩
  | objfsCached =>
    refine ⟨hh, h.tag, h.dirty, fun o hlo hhi hd ht => (h.clean o hlo hhi hd ht).trans ?_⟩
    have htag : 0 ≤ d.cacheArray o ∧ d.cacheArray o < 256 := ⟨ht, (h.tag o hlo hhi).2⟩
    refine (hsame _ ?_).symm
    rw [cacheBlocks_eq] at hhi ⊢
    rw [validBlock_iff]
    omega

theorem foreign_view {disk : Disk}
    (hsame : disk.image (writeOffset + b) = d.disk.image (writeOffset + b)) :
    (device build).view { d with disk := disk } b = (device build).view d b := by
  cases build with
  | objfs => exact hsame
  | objfsCached =>
    simp only [device, BlockCache.device, cachedView]
    split_ifs
    · rfl
    · exact hsame

end Foreign

section Flush

lemma flushCache_clean (h : ∀ o, 0 ≤ o → o < cacheBlocks → d.dirtyCache o = false) :
    flushCache d = d := by
  have hcast : ((cacheBlocks.toNat : ℕ) : ℤ) = cacheBlocks := rfl
  have hslot : ∀ o ∈ List.range cacheBlocks.toNat, flushSlot d o = d := fun o ho => by
    have hlt : (o : ℤ) < cacheBlocks := hcast ▸ Nat.cast_lt.mpr (List.mem_range.mp ho)
    rw [flushSlot, h o (Nat.cast_nonneg o) hlt, if_neg Bool.false_ne_true]
  unfold flushCache
  generalize List.range cacheBlocks.toNat = slots at hslot ⊢
  induction slots with
  | nil => rfl
  | cons o os ih =>
    rw [List.foldl_cons, hslot o List.mem_cons_self]
    exact ih fun o' ho' => hslot o' (List.mem_cons_of_mem o ho')

/-- The flush at unmount brings the view of a build to the disk. -/
theorem flush_image (h : (device build).Ok d) (hb : ValidBlock b) :
    (flushCache d).disk.image (writeOffset + b) = (device build).view d b := by
  cases build with
  | objfs =>
    rw [flushCache_clean h.clean]
    rfl
  | objfsCached => exact flushCache_image h hb

theorem flush_low (h : (device build).Ok d) (hp : p < writeOffset) :
    (flushCache d).disk.image p = d.disk.image p := by
  cases build with
  | objfs => rw [flushCache_clean h.clean]
  | objfsCached =>
    have htrace : Traced {b | 0 ≤ b} d.disk d :=
      ⟨fun o hlo hhi hd => add_nonneg (mul_nonneg (h.dirty o hlo hhi hd) (by decide)) hlo,
        fun q hq => Or.inl hq, fun q _ => rfl⟩
    refine (htrace.flushCache h).image p fun c hc he => ?_
    have hc' : 0 ≤ c := hc
    omega

theorem flush_healthy (h : (device build).Ok d) : (flushCache d).disk.Healthy := by
  cases build with
  | objfs =>
    rw [flushCache_clean h.clean]
    exact h.healthy
  | objfsCached =>
    have hcast : ((cacheBlocks.toNat : ℕ) : ℤ) = cacheBlocks := rfl
    exact (flush_upto (k := cacheBlocks.toNat) h hcast.le).1.healthy

end Flush

/-- What the flush makes of a device whose disk was replaced by `disk`. -/
structure Flushed (build : Build) (d : Device) (disk : Disk) (dev : Device) : Prop where
  healthy : dev.disk.Healthy
  low : ∀ p, p < writeOffset → dev.disk.image p = disk.image p
  blocks : ∀ b, ValidBlock b → dev.disk.image (writeOffset + b) = (device build).view d b

theorem flush_foreign (h : (device build).Ok d) {disk : Disk} (hh : disk.Healthy)
    (hsame : ∀ b, ValidBlock b →
      disk.image (writeOffset + b) = d.disk.image (writeOffset + b)) :
    Flushed build d disk (flushCache { d with disk := disk }) := by
  have hok := foreign_ok h hh hsame
  refine ⟨flush_healthy hok, fun p hp => ?_, fun b hb => ?_⟩
  · rw [flush_low hok hp]
  · rw [flush_image hok hb, foreign_view (hsame b hb)]

theorem device_healthy (h : (device build).Ok d) : d.disk.Healthy := by
  cases build with
  | objfs => exact h.healthy
  | objfsCached => exact h.healthy

/-- The arrays of `objstore_init` put either build in order over any healthy disk. -/
theorem init_ok (h : d.disk.Healthy) : (device build).Ok (initCache d) := by
  cases build with
  | objfs => exact ⟨h, fun _ hlo hhi => (initCache_slot hlo hhi).2⟩
  | objfsCached => exact initCache_ok h

theorem init_view (hb : ValidBlock b) :
    (device build).view (initCache d) b = d.disk.image (writeOffset + b) := by
  cases build with
  | objfs => rfl
  | objfsCached => exact initCache_view hb

end Builds

end OsAssignments
