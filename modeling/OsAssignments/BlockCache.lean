import OsAssignments.BlockDevice
import OsAssignments.Disk

/-!
# The direct-mapped write-back cache

Slot `off` of the cache may hold data block `cacheArray[off] * CACHE_BLOCKS + off`;
a dirty slot is newer than the disk. The arrays are addressed by integers, so an
index outside `[0, CACHE_BLOCKS)` names a cell outside the array.

Both builds of the store are block devices: `objfs` goes to the disk at every
access, `objfs_cached` goes through the cache.
-/
namespace OsAssignments

/-- `CACHE_BLOCKS`. -/
def cacheBlocks : ℤ := 32768

lemma cacheBlocks_eq : cacheBlocks = 32768 := rfl

/-- The number of data blocks: the bits of `bit_map_data`. -/
def dataBits : ℕ := 32 * (dataBlocks * blockSize / 4)

lemma dataBits_eq : dataBits = 8388608 := rfl

/-- `struct objfs_state` with the cache arrays of objstore.c. -/
structure Device where
  disk : Disk
  cache : ℤ → Block
  cacheArray : ℤ → ℤ
  dirtyCache : ℤ → Bool

/-- An all-zero disk image. -/
def blankDevice : Device where
  disk := { image := fun _ _ => 0, fails := fun _ => false, log := [] }
  cache := fun _ _ => 0
  cacheArray := fun _ => 0
  dirtyCache := fun _ => false

namespace BlockCache

/-- `if(dirty_cache[off]==1) write_block(...)`, the eviction both paths make. -/
def writeBack (d : Device) (cacheOff : ℤ) : Device :=
  if d.dirtyCache cacheOff then
    { d with disk := (writeBlock d.disk
        (writeOffset + d.cacheArray cacheOff * cacheBlocks + cacheOff) (d.cache cacheOff)).1 }
  else d

def writeCached (d : Device) (block : ℤ) (buf : Block) : Device :=
  let cacheIndex := block.tdiv cacheBlocks
  let cacheOff := block.tmod cacheBlocks
  let d := writeBack d cacheOff
  { d with
    cache := Function.update d.cache cacheOff buf
    cacheArray := Function.update d.cacheArray cacheOff cacheIndex
    dirtyCache := Function.update d.dirtyCache cacheOff true }

/-- The second component is the caller's buffer afterwards. -/
def readCached (d : Device) (block : ℤ) : Device × Block :=
  let cacheIndex := block.tdiv cacheBlocks
  let cacheOff := block.tmod cacheBlocks
  if d.cacheArray cacheOff ≠ cacheIndex then
    let d := writeBack d cacheOff
    let r := readBlock d.disk (writeOffset + block) (d.cache cacheOff)
    ({ d with
      disk := r.1
      cache := Function.update d.cache cacheOff r.2.1
      cacheArray := Function.update d.cacheArray cacheOff cacheIndex
      dirtyCache := Function.update d.dirtyCache cacheOff false }, r.2.1)
  else (d, d.cache cacheOff)

def findCache (d : Device) (block : ℤ) : Device :=
  let cacheIndex := block.tdiv cacheBlocks
  let cacheOff := block.tmod cacheBlocks
  if d.cacheArray cacheOff = cacheIndex then
    { d with
      cacheArray := Function.update d.cacheArray cacheOff (-1)
      dirtyCache := Function.update d.dirtyCache cacheOff false }
  else d

/-- The cache arrays as `objstore_init` leaves them. -/
def initCache (d : Device) : Device :=
  { d with
    cacheArray := fun o => if 0 ≤ o ∧ o < cacheBlocks then -1 else d.cacheArray o
    dirtyCache := fun o => if 0 ≤ o ∧ o < cacheBlocks then false else d.dirtyCache o }

/-- One iteration of the flush of `objstore_destroy`. -/
def flushSlot (d : Device) (off : ℕ) : Device :=
  if d.dirtyCache off then
    if 0 ≤ d.cacheArray off then
      { d with disk := (writeBlock d.disk
          (writeOffset + (d.cacheArray off * cacheBlocks + off)) (d.cache off)).1 }
    else d
  else d

def flushCache (d : Device) : Device := (List.range cacheBlocks.toNat).foldl flushSlot d

/-- The numbers of the data blocks. -/
def ValidBlock (b : ℤ) : Prop := 0 ≤ b ∧ b < dataBits

lemma validBlock_iff {b : ℤ} : ValidBlock b ↔ 0 ≤ b ∧ b < 8388608 := Iff.rfl

/-- What a read of block `b` returns: the slot when its tag matches, else the disk. -/
def cachedView (d : Device) (b : ℤ) : Block :=
  if d.cacheArray (b % cacheBlocks) = b / cacheBlocks then d.cache (b % cacheBlocks)
  else d.disk.image (writeOffset + b)

/-- Tags stay in range, a dirty slot has a tag, and a clean tagged slot agrees
with the disk. -/
structure CacheOk (d : Device) : Prop where
  healthy : d.disk.Healthy
  tag : ∀ o, 0 ≤ o → o < cacheBlocks → -1 ≤ d.cacheArray o ∧ d.cacheArray o < 256
  dirty : ∀ o, 0 ≤ o → o < cacheBlocks → d.dirtyCache o = true → 0 ≤ d.cacheArray o
  clean : ∀ o, 0 ≤ o → o < cacheBlocks → d.dirtyCache o = false → 0 ≤ d.cacheArray o →
    d.cache o = d.disk.image (writeOffset + (d.cacheArray o * cacheBlocks + o))

section Arithmetic

variable {b : ℤ}

lemma slot_bounds (b : ℤ) : 0 ≤ b % cacheBlocks ∧ b % cacheBlocks < cacheBlocks :=
  ⟨Int.emod_nonneg _ (by decide), Int.emod_lt_of_pos _ (by decide)⟩

lemma slot_tdiv (hb : ValidBlock b) : b.tdiv cacheBlocks = b / cacheBlocks :=
  Int.tdiv_eq_ediv_of_nonneg hb.1

lemma slot_tmod (hb : ValidBlock b) : b.tmod cacheBlocks = b % cacheBlocks :=
  Int.tmod_eq_emod_of_nonneg hb.1

lemma slot_tag (hb : ValidBlock b) : 0 ≤ b / cacheBlocks ∧ b / cacheBlocks < 256 := by
  rw [validBlock_iff] at hb
  rw [cacheBlocks_eq]
  omega

lemma slot_split (b : ℤ) : b / cacheBlocks * cacheBlocks + b % cacheBlocks = b := by
  rw [mul_comm]
  exact Int.mul_ediv_add_emod b cacheBlocks

/-- Slot and tag together determine the block. -/
lemma slot_ext {b b' : ℤ} (hs : b % cacheBlocks = b' % cacheBlocks)
    (ht : b / cacheBlocks = b' / cacheBlocks) : b = b' := by
  rw [← slot_split b, hs, ht, slot_split]

end Arithmetic

section WriteBack

variable {d : Device} {o : ℤ}

@[simp] theorem writeBack_cache : (writeBack d o).cache = d.cache := by
  unfold writeBack
  split_ifs <;> rfl

@[simp] theorem writeBack_cacheArray : (writeBack d o).cacheArray = d.cacheArray := by
  unfold writeBack
  split_ifs <;> rfl

@[simp] theorem writeBack_dirtyCache : (writeBack d o).dirtyCache = d.dirtyCache := by
  unfold writeBack
  split_ifs <;> rfl

theorem writeBack_healthy (h : d.disk.Healthy) : (writeBack d o).disk.Healthy := by
  unfold writeBack
  split_ifs
  · exact h.writeBlock _ _
  · exact h

/-- The only image block an eviction may change is the one tagged in its slot. -/
lemma writeBack_image_ne {p : ℤ}
    (hp : d.dirtyCache o = true → p ≠ writeOffset + d.cacheArray o * cacheBlocks + o) :
    (writeBack d o).disk.image p = d.disk.image p := by
  unfold writeBack
  split_ifs with hd
  · exact writeBlock_image_ne _ (hp hd) _
  · rfl

/-- After an eviction the disk holds every block of the slot. -/
lemma writeBack_image (h : CacheOk d) {b : ℤ} (hb : ValidBlock b) (ho : b % cacheBlocks = o) :
    (writeBack d o).disk.image (writeOffset + b) = cachedView d b := by
  subst ho
  obtain ⟨hlo, hhi⟩ := slot_bounds b
  have hsplit := slot_split b
  have htag := slot_tag hb
  unfold cachedView
  split_ifs with ht
  · cases hd : d.dirtyCache (b % cacheBlocks) with
    | false =>
      rw [writeBack_image_ne (by simp [hd]), h.clean _ hlo hhi hd (by omega), ht, hsplit]
    | true =>
      rw [writeBack, if_pos hd, ht, add_assoc, hsplit]
      have hpos : 0 ≤ writeOffset + b := by have := writeOffset_eq; have := hb.1; omega
      simp only [writeBlock_image h.healthy hpos, Function.update_self]
  · refine writeBack_image_ne fun _ hp => ht ?_
    have hmul : d.cacheArray (b % cacheBlocks) * cacheBlocks = b / cacheBlocks * cacheBlocks := by
      omega
    exact mul_right_cancel₀ (by decide) hmul

lemma writeBack_image_of_slot_ne {b : ℤ} (hlo : 0 ≤ o) (hhi : o < cacheBlocks)
    (ho : b % cacheBlocks ≠ o) :
    (writeBack d o).disk.image (writeOffset + b) = d.disk.image (writeOffset + b) := by
  refine writeBack_image_ne fun hd hp => ho ?_
  have hb' : b = d.cacheArray o * cacheBlocks + o := by omega
  rw [hb', mul_comm, Int.mul_add_emod_self_left]
  exact Int.emod_eq_of_lt hlo hhi

end WriteBack

section Slot

variable {d : Device} {b : ℤ}

/-- A slot replaced after its eviction: the shape of every cache operation that
gives the slot of `b` new contents. -/
def refill (d : Device) (b : ℤ) (disk : Disk) (buf : Block) (dirty : Bool) : Device :=
  { writeBack d (b % cacheBlocks) with
    disk := disk
    cache := Function.update d.cache (b % cacheBlocks) buf
    cacheArray := Function.update d.cacheArray (b % cacheBlocks) (b / cacheBlocks)
    dirtyCache := Function.update d.dirtyCache (b % cacheBlocks) dirty }

lemma writeCached_eq (hb : ValidBlock b) (buf : Block) :
    writeCached d b buf = refill d b (writeBack d (b % cacheBlocks)).disk buf true := by
  simp [writeCached, refill, slot_tdiv hb, slot_tmod hb]

lemma readCached_miss (hb : ValidBlock b) (ht : d.cacheArray (b % cacheBlocks) ≠ b / cacheBlocks) :
    readCached d b =
      (refill d b (readBlock (writeBack d (b % cacheBlocks)).disk (writeOffset + b)
        (d.cache (b % cacheBlocks))).1 (readBlock (writeBack d (b % cacheBlocks)).disk
          (writeOffset + b) (d.cache (b % cacheBlocks))).2.1 false,
        (readBlock (writeBack d (b % cacheBlocks)).disk (writeOffset + b)
          (d.cache (b % cacheBlocks))).2.1) := by
  simp [readCached, refill, slot_tdiv hb, slot_tmod hb, ht]

lemma readCached_hit (hb : ValidBlock b) (ht : d.cacheArray (b % cacheBlocks) = b / cacheBlocks) :
    readCached d b = (d, d.cache (b % cacheBlocks)) := by
  simp [readCached, slot_tdiv hb, slot_tmod hb, ht]

lemma readBlock_writeBack (h : CacheOk d) (hb : ValidBlock b) :
    (readBlock (writeBack d (b % cacheBlocks)).disk (writeOffset + b)
      (d.cache (b % cacheBlocks))).2.1 = cachedView d b := by
  have hpos : 0 ≤ writeOffset + b := by have := writeOffset_eq; have := hb.1; omega
  rw [readBlock_val (writeBack_healthy h.healthy) hpos, writeBack_image h hb rfl]

/-- Refilling the slot of `b` keeps the invariant, as long as clean contents are
those of the disk. -/
lemma refill_ok (h : CacheOk d) (hb : ValidBlock b) {disk : Disk} {buf : Block} {dirty : Bool}
    (hh : disk.Healthy) (himage : disk.image = (writeBack d (b % cacheBlocks)).disk.image)
    (hclean : dirty = false → buf = cachedView d b) : CacheOk (refill d b disk buf dirty) := by
  have htag := slot_tag hb
  have hs := slot_bounds b
  refine ⟨hh, fun o hlo hhi => ?_, fun o hlo hhi hd => ?_, fun o hlo hhi hd ht => ?_⟩
  · by_cases ho : o = b % cacheBlocks
    · subst ho
      simp only [refill, Function.update_self]
      omega
    · simp only [refill, Function.update_of_ne ho]
      exact h.tag o hlo hhi
  · by_cases ho : o = b % cacheBlocks
    · subst ho
      simp only [refill, Function.update_self]
      exact htag.1
    · simp only [refill, Function.update_of_ne ho] at hd ⊢
      exact h.dirty o hlo hhi hd
  · by_cases ho : o = b % cacheBlocks
    · subst ho
      simp only [refill, Function.update_self] at hd ⊢
      rw [slot_split, himage, writeBack_image h hb rfl, hclean hd]
    · simp only [refill, Function.update_of_ne ho] at hd ht ⊢
      have haddr : ∀ p, p = d.cacheArray o * cacheBlocks + o →
          (writeBack d (b % cacheBlocks)).disk.image (writeOffset + p) =
            d.disk.image (writeOffset + p) := by
        intro p hp
        refine writeBack_image_of_slot_ne hs.1 hs.2 ?_
        rw [hp, mul_comm, Int.mul_add_emod_self_left, Int.emod_eq_of_lt hlo hhi]
        exact ho
      rw [himage, haddr _ rfl]
      exact h.clean o hlo hhi hd ht

/-- Refilling the slot of `b` changes the view of `b` only. -/
lemma refill_view (h : CacheOk d) {b' : ℤ} (hb' : ValidBlock b') {disk : Disk}
    {buf : Block} {dirty : Bool}
    (himage : disk.image = (writeBack d (b % cacheBlocks)).disk.image) :
    cachedView (refill d b disk buf dirty) b' = if b' = b then buf else cachedView d b' := by
  have hs := slot_bounds b
  split_ifs with hbb
  · subst hbb
    simp [cachedView, refill]
  · by_cases ho : b' % cacheBlocks = b % cacheBlocks
    · have ht : b / cacheBlocks ≠ b' / cacheBlocks := fun ht => hbb (slot_ext ho ht.symm)
      simp only [cachedView, refill, ho, Function.update_self, if_neg ht, himage]
      rw [writeBack_image h hb' ho, cachedView, ho]
    · simp only [cachedView, refill, Function.update_of_ne ho, himage]
      rw [writeBack_image_of_slot_ne hs.1 hs.2 ho]

end Slot

variable {d : Device} {b b' : ℤ}

theorem writeCached_ok (h : CacheOk d) (hb : ValidBlock b) (buf : Block) :
    CacheOk (writeCached d b buf) := by
  rw [writeCached_eq hb]
  exact refill_ok h hb (writeBack_healthy h.healthy) rfl (by simp)

theorem writeCached_view (h : CacheOk d) (hb : ValidBlock b) (hb' : ValidBlock b') (buf : Block) :
    cachedView (writeCached d b buf) b' = if b' = b then buf else cachedView d b' := by
  rw [writeCached_eq hb]
  exact refill_view h hb' rfl

theorem readCached_val (h : CacheOk d) (hb : ValidBlock b) :
    (readCached d b).2 = cachedView d b := by
  by_cases ht : d.cacheArray (b % cacheBlocks) = b / cacheBlocks
  · rw [readCached_hit hb ht, cachedView, if_pos ht]
  · rw [readCached_miss hb ht]
    exact readBlock_writeBack h hb

theorem readCached_ok (h : CacheOk d) (hb : ValidBlock b) : CacheOk (readCached d b).1 := by
  by_cases ht : d.cacheArray (b % cacheBlocks) = b / cacheBlocks
  · rw [readCached_hit hb ht]
    exact h
  · rw [readCached_miss hb ht]
    exact refill_ok h hb ((writeBack_healthy h.healthy).readBlock _ _) (readBlock_image _ _ _)
      fun _ => readBlock_writeBack h hb

theorem readCached_view (h : CacheOk d) (hb : ValidBlock b) (hb' : ValidBlock b') :
    cachedView (readCached d b).1 b' = cachedView d b' := by
  by_cases ht : d.cacheArray (b % cacheBlocks) = b / cacheBlocks
  · rw [readCached_hit hb ht]
  · rw [readCached_miss hb ht, refill_view h hb' (readBlock_image _ _ _)]
    split_ifs with hbb
    · rw [hbb, readBlock_writeBack h hb]
    · rfl

lemma findCache_hit (hb : ValidBlock b) (ht : d.cacheArray (b % cacheBlocks) = b / cacheBlocks) :
    findCache d b = { d with
      cacheArray := Function.update d.cacheArray (b % cacheBlocks) (-1)
      dirtyCache := Function.update d.dirtyCache (b % cacheBlocks) false } := by
  simp [findCache, slot_tdiv hb, slot_tmod hb, ht]

lemma findCache_miss (hb : ValidBlock b)
    (ht : d.cacheArray (b % cacheBlocks) ≠ b / cacheBlocks) : findCache d b = d := by
  simp [findCache, slot_tdiv hb, slot_tmod hb, ht]

theorem findCache_ok (h : CacheOk d) (hb : ValidBlock b) : CacheOk (findCache d b) := by
  by_cases ht : d.cacheArray (b % cacheBlocks) = b / cacheBlocks
  · rw [findCache_hit hb ht]
    refine ⟨h.healthy, fun o hlo hhi => ?_, fun o hlo hhi hd => ?_, fun o hlo hhi hd ht' => ?_⟩ <;>
      by_cases ho : o = b % cacheBlocks
    · simp [ho]
    · simp only [Function.update_of_ne ho]
      exact h.tag o hlo hhi
    · simp [ho] at hd
    · simp only [Function.update_of_ne ho] at hd ⊢
      exact h.dirty o hlo hhi hd
    · simp [ho] at ht'
    · simp only [Function.update_of_ne ho] at hd ht' ⊢
      exact h.clean o hlo hhi hd ht'
  · rw [findCache_miss hb ht]
    exact h

/-- A block dropped after a write reads as before the write. -/
theorem findCache_writeCached (h : CacheOk d) (hb : ValidBlock b) (buf : Block) :
    cachedView (findCache (writeCached d b buf) b) b = cachedView d b := by
  have hne : ¬(-1 = b / cacheBlocks) := by
    have := (slot_tag hb).1
    omega
  have htag : (refill d b (writeBack d (b % cacheBlocks)).disk buf true).cacheArray
      (b % cacheBlocks) = b / cacheBlocks := by simp [refill]
  rw [writeCached_eq hb, findCache_hit hb htag, cachedView]
  simp only [Function.update_self, if_neg hne]
  exact writeBack_image h hb rfl

theorem findCache_view (hb : ValidBlock b) (hb' : ValidBlock b') (hne : b' ≠ b) :
    cachedView (findCache d b) b' = cachedView d b' := by
  by_cases ht : d.cacheArray (b % cacheBlocks) = b / cacheBlocks
  · rw [findCache_hit hb ht]
    by_cases ho : b' % cacheBlocks = b % cacheBlocks
    · have htag := (slot_tag hb').1
      have hold : ¬d.cacheArray (b' % cacheBlocks) = b' / cacheBlocks := by
        rw [ho, ht]
        exact fun he => hne (slot_ext ho he.symm)
      simp only [cachedView, ho, Function.update_self]
      rw [ho] at hold
      rw [if_neg hold, if_neg (by omega)]
    · simp only [cachedView, Function.update_of_ne ho]
  · rw [findCache_miss hb ht]

lemma initCache_slot {o : ℤ} (hlo : 0 ≤ o) (hhi : o < cacheBlocks) :
    (initCache d).cacheArray o = -1 ∧ (initCache d).dirtyCache o = false :=
  ⟨if_pos ⟨hlo, hhi⟩, if_pos ⟨hlo, hhi⟩⟩

theorem initCache_ok (h : d.disk.Healthy) : CacheOk (initCache d) := by
  refine ⟨h, fun o hlo hhi => ?_, fun o hlo hhi hd => ?_, fun o hlo hhi _ ht => ?_⟩
  · rw [(initCache_slot hlo hhi).1]
    decide
  · rw [(initCache_slot hlo hhi).2] at hd
    cases hd
  · rw [(initCache_slot hlo hhi).1] at ht
    exact absurd ht (by decide)

@[simp] theorem initCache_view (hb : ValidBlock b) :
    cachedView (initCache d) b = d.disk.image (writeOffset + b) := by
  have hindex := (slot_tag hb).1
  obtain ⟨hlo, hhi⟩ := slot_bounds b
  have htag := (initCache_slot (d := d) hlo hhi).1
  rw [cachedView, if_neg (by omega)]
  rfl

/-- The cache of the `objfs_cached` build as a block device. -/
def device : BlockDevice Device ℤ Block where
  Valid := ValidBlock
  Ok := CacheOk
  view := cachedView
  read := readCached
  write := writeCached
  drop := findCache
  read_ok := readCached_ok
  read_val := readCached_val
  read_view := readCached_view
  write_ok := fun h hb => writeCached_ok h hb _
  write_self := fun h hb => by rw [writeCached_view h hb hb, if_pos rfl]
  write_ne := fun h hb hb' hne => by rw [writeCached_view h hb hb', if_neg hne]
  drop_ok := findCache_ok
  drop_ne := fun _ hb hb' hne => findCache_view hb hb' hne

end BlockCache

end OsAssignments
