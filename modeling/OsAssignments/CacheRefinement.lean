import OsAssignments.BlockCache

/-!
# The cache refines a plain block store

Runs of `write_cached`, `read_cached` and `find_cache` in any order. The block
device laws give what a read returns; what remains is where the cache writes on
the disk, which is traced here by the set of blocks written through the cache,
and the flush at unmount.
-/
namespace OsAssignments.BlockCache

open BlockDevice (Op)

section Flush

variable {d : Device} {o b : ℤ}

lemma writeBack_view (h : CacheOk d) (hlo : 0 ≤ o) (hhi : o < cacheBlocks) (hb : ValidBlock b) :
    cachedView (writeBack d o) b = cachedView d b := by
  by_cases ht : d.cacheArray (b % cacheBlocks) = b / cacheBlocks
  · simp [cachedView, ht]
  · have himage : cachedView (writeBack d o) b = (writeBack d o).disk.image (writeOffset + b) := by
      simp [cachedView, ht]
    rw [himage]
    by_cases ho : b % cacheBlocks = o
    · exact writeBack_image h hb ho
    · rw [writeBack_image_of_slot_ne hlo hhi ho, cachedView, if_neg ht]

lemma writeBack_ok (h : CacheOk d) (hlo : 0 ≤ o) (hhi : o < cacheBlocks) :
    CacheOk (writeBack d o) := by
  refine ⟨writeBack_healthy h.healthy, fun p h1 h2 => ?_, fun p h1 h2 hd => ?_,
    fun p h1 h2 hd ht => ?_⟩
  · simpa using h.tag p h1 h2
  · simpa using h.dirty p h1 h2 (by simpa using hd)
  · simp only [writeBack_dirtyCache, writeBack_cacheArray, writeBack_cache] at hd ht ⊢
    rw [h.clean p h1 h2 hd ht]
    by_cases hp : p = o
    · subst hp
      rw [writeBack, if_neg (by simp [hd])]
    · refine (writeBack_image_of_slot_ne hlo hhi ?_).symm
      rw [mul_comm, Int.mul_add_emod_self_left, Int.emod_eq_of_lt h1 h2]
      exact hp

/-- With the invariant the flush of a slot is its eviction: a dirty slot has a tag. -/
lemma flushSlot_eq (h : CacheOk d) {off : ℕ} (hoff : (off : ℤ) < cacheBlocks) :
    flushSlot d off = writeBack d off := by
  rw [flushSlot, writeBack]
  split_ifs with hd ht
  · rw [add_assoc]
  · exact absurd (h.dirty off (by omega) hoff hd) ht
  · rfl

/-- The flush keeps the cache and brings every block of the slots passed so far
to the disk. -/
lemma flush_upto (h : CacheOk d) {k : ℕ} (hk : (k : ℤ) ≤ cacheBlocks) :
    CacheOk ((List.range k).foldl flushSlot d) ∧
    (∀ b, ValidBlock b → cachedView ((List.range k).foldl flushSlot d) b = cachedView d b) ∧
    ∀ b, ValidBlock b → b % cacheBlocks < k →
      ((List.range k).foldl flushSlot d).disk.image (writeOffset + b) = cachedView d b := by
  induction k with
  | zero => exact ⟨h, fun b _ => rfl, fun b _ hb => by have := (slot_bounds b).1; simp at hb; omega⟩
  | succ k ih =>
    obtain ⟨hok, hview, himage⟩ := ih (by push_cast at hk; omega)
    have hk' : (k : ℤ) < cacheBlocks := by push_cast at hk; omega
    rw [List.range_succ, List.foldl_append, List.foldl_cons, List.foldl_nil, flushSlot_eq hok hk']
    refine ⟨writeBack_ok hok (by omega) hk', fun b hb => ?_, fun b hb hlt => ?_⟩
    · rw [writeBack_view hok (by omega) hk' hb, hview b hb]
    · by_cases ho : b % cacheBlocks = k
      · rw [writeBack_image hok hb ho, hview b hb]
      · rw [writeBack_image_of_slot_ne (by omega) hk' ho]
        exact himage b hb (by push_cast at hlt; omega)

theorem flushCache_image (h : CacheOk d) (hb : ValidBlock b) :
    (flushCache d).disk.image (writeOffset + b) = cachedView d b := by
  have hcast : ((cacheBlocks.toNat : ℕ) : ℤ) = cacheBlocks := rfl
  have hlt : b % cacheBlocks < (cacheBlocks.toNat : ℕ) := hcast ▸ (slot_bounds b).2
  rw [flushCache]
  exact (flush_upto (k := cacheBlocks.toNat) h hcast.le).2.2 b hb hlt

end Flush

/-- What the cache has done to the disk `d₀` it started from, when the blocks
written through it are those of `W`. -/
structure Traced (W : Set ℤ) (d₀ : Disk) (d : Device) : Prop where
  dirty : ∀ o, 0 ≤ o → o < cacheBlocks → d.dirtyCache o = true →
    d.cacheArray o * cacheBlocks + o ∈ W
  log : ∀ p, Transfer.write p ∈ d.disk.log →
    Transfer.write p ∈ d₀.log ∨ ∃ b ∈ W, p = writeOffset + b
  image : ∀ p, (∀ b ∈ W, p ≠ writeOffset + b) → d.disk.image p = d₀.image p

namespace Traced

variable {W : Set ℤ} {d₀ : Disk} {d : Device} {b o : ℤ}

theorem init (d : Device) : Traced ∅ d.disk (initCache d) :=
  ⟨fun o hlo hhi hd => by simp [(initCache_slot hlo hhi).2] at hd, fun p hp => Or.inl hp,
    fun p _ => rfl⟩

theorem mono {W' : Set ℤ} (h : Traced W d₀ d) (hW : W ⊆ W') : Traced W' d₀ d :=
  ⟨fun o hlo hhi hd => hW (h.dirty o hlo hhi hd),
    fun p hp => (h.log p hp).imp_right fun ⟨b, hb, he⟩ => ⟨b, hW hb, he⟩,
    fun p hp => h.image p fun b hb => hp b (hW hb)⟩

theorem writeBack (h : Traced W d₀ d) (hlo : 0 ≤ o) (hhi : o < cacheBlocks) :
    Traced W d₀ (writeBack d o) := by
  refine ⟨fun o' hlo' hhi' hd => ?_, fun p hp => ?_, fun p hp => ?_⟩
  · simpa using h.dirty o' hlo' hhi' (by simpa using hd)
  · unfold BlockCache.writeBack at hp
    split_ifs at hp with hd
    · rw [writeBlock_log, List.mem_cons] at hp
      rcases hp with hp | hp
      · cases hp
        exact Or.inr ⟨_, h.dirty o hlo hhi hd, by rw [add_assoc]⟩
      · exact h.log p hp
    · exact h.log p hp
  · rw [writeBack_image_ne, h.image p hp]
    intro hd he
    exact hp _ (h.dirty o hlo hhi hd) (by rw [he, add_assoc])

/-- Replacing the slot of `b`, with contents that are only dirty when `b` counts
as written. -/
theorem refill (h : Traced W d₀ d) {disk : Disk} {buf : Block} {dirty : Bool}
    (himage : disk.image = (BlockCache.writeBack d (b % cacheBlocks)).disk.image)
    (hlog : ∀ p, Transfer.write p ∈ disk.log →
      Transfer.write p ∈ (BlockCache.writeBack d (b % cacheBlocks)).disk.log)
    (hdirty : dirty = true → b ∈ W) : Traced W d₀ (refill d b disk buf dirty) := by
  have hs := slot_bounds b
  have hw := h.writeBack hs.1 hs.2
  refine ⟨fun o hlo hhi hd => ?_, fun p hp => hw.log p (hlog p hp), fun p hp => ?_⟩
  · by_cases ho : o = b % cacheBlocks
    · subst ho
      simp only [BlockCache.refill, Function.update_self] at hd ⊢
      rw [slot_split]
      exact hdirty hd
    · simp only [BlockCache.refill, Function.update_of_ne ho] at hd ⊢
      exact h.dirty o hlo hhi hd
  · exact (congrFun himage p).trans (hw.image p hp)

theorem writeCached (h : Traced W d₀ d) (hb : ValidBlock b) (buf : Block) :
    Traced (insert b W) d₀ (writeCached d b buf) := by
  rw [writeCached_eq hb]
  exact (h.mono (Set.subset_insert b W)).refill rfl (fun p hp => hp) fun _ => Set.mem_insert b W

theorem readCached (h : Traced W d₀ d) (hb : ValidBlock b) : Traced W d₀ (readCached d b).1 := by
  by_cases ht : d.cacheArray (b % cacheBlocks) = b / cacheBlocks
  · rw [readCached_hit hb ht]
    exact h
  · rw [readCached_miss hb ht]
    exact h.refill (readBlock_image _ _ _) (fun p hp => by simpa using hp) (by simp)

theorem findCache (h : Traced W d₀ d) (hb : ValidBlock b) : Traced W d₀ (findCache d b) := by
  by_cases ht : d.cacheArray (b % cacheBlocks) = b / cacheBlocks
  · rw [findCache_hit hb ht]
    refine ⟨fun o hlo hhi hd => ?_, h.log, h.image⟩
    by_cases ho : o = b % cacheBlocks
    · simp [ho] at hd
    · simp only [Function.update_of_ne ho] at hd ⊢
      exact h.dirty o hlo hhi hd
  · rw [findCache_miss hb ht]
    exact h

/-- A block that was never written through the cache reads as on the first disk. -/
theorem view_of_not_mem (h : Traced W d₀ d) (hok : CacheOk d) (hv : ValidBlock b) (hb : b ∉ W) :
    cachedView d b = d₀.image (writeOffset + b) := by
  obtain ⟨hlo, hhi⟩ := slot_bounds b
  have hsplit := slot_split b
  have himage : d.disk.image (writeOffset + b) = d₀.image (writeOffset + b) :=
    h.image _ fun c hc he => hb (by rwa [add_left_cancel he])
  unfold cachedView
  split_ifs with ht
  · have hclean : d.dirtyCache (b % cacheBlocks) = false := by
      by_contra hd
      have := h.dirty _ hlo hhi (by simpa using hd)
      rw [ht, hsplit] at this
      exact hb this
    rw [hok.clean _ hlo hhi hclean (by have := (slot_tag hv).1; omega), ht, hsplit, himage]
  · exact himage

theorem flushCache (h : Traced W d₀ d) (hok : CacheOk d) : Traced W d₀ (flushCache d) := by
  have hpre : ∀ k : ℕ, (k : ℤ) ≤ cacheBlocks →
      Traced W d₀ ((List.range k).foldl flushSlot d) := by
    intro k hk
    induction k with
    | zero => exact h
    | succ k ih =>
      push_cast at hk
      rw [List.range_succ, List.foldl_append, List.foldl_cons, List.foldl_nil,
        flushSlot_eq (flush_upto hok (by omega)).1 (by omega)]
      exact (ih (by omega)).writeBack (by omega) (by omega)
  exact hpre _ (by decide)

end Traced

/-- One cache operation of a run. -/
def cacheStep (d : Device) : Op ℤ Block → Device
  | .read b => (readCached d b).1
  | .write b buf => writeCached d b buf
  | .drop b => findCache d b

def cacheRun (d : Device) (ops : List (Op ℤ Block)) : Device := ops.foldl cacheStep d

lemma cacheStep_eq : cacheStep = device.step := by
  funext d op
  cases op <;> rfl

lemma cacheRun_eq (d : Device) (ops : List (Op ℤ Block)) : cacheRun d ops = device.run d ops := by
  rw [cacheRun, cacheStep_eq, BlockDevice.run]

/-- The blocks a list of operations writes. -/
def written (ops : List (Op ℤ Block)) : Set ℤ := {b | ∃ buf, Op.write b buf ∈ ops}

lemma cacheRun_traced {W : Set ℤ} {d₀ : Disk} {d : Device} (h : Traced W d₀ d)
    {ops : List (Op ℤ Block)} (hv : ∀ op ∈ ops, ValidBlock op.block) :
    Traced (W ∪ written ops) d₀ (cacheRun d ops) := by
  induction ops generalizing W d with
  | nil => exact h.mono Set.subset_union_left
  | cons op ops ih =>
    have hop := hv op (by simp)
    have htail : ∀ W', W' ⊆ W ∪ written (op :: ops) → Traced W' d₀ (cacheStep d op) →
        Traced (W ∪ written (op :: ops)) d₀ (cacheRun d (op :: ops)) := by
      intro W' hW ht
      refine (ih ht fun o ho => hv o (by simp [ho])).mono (Set.union_subset hW ?_)
      rintro b ⟨buf, hb⟩
      exact Or.inr ⟨buf, by simp [hb]⟩
    cases op with
    | read b => exact htail W Set.subset_union_left (h.readCached hop)
    | write b buf =>
      refine htail (insert b W) (Set.insert_subset ?_ Set.subset_union_left) (h.writeCached hop buf)
      exact Or.inr ⟨buf, by simp⟩
    | drop b => exact htail W Set.subset_union_left (h.findCache hop)

/-- The cache implements a plain block device. From the arrays of `objstore_init`
over any disk, after any sequence of operations on data blocks: a read returns
the last data written to the block if no `find_cache` followed, or the first
contents of the disk if the block was never written; an operation on one block
is invisible at every other; the disk is written at written blocks only; and the
flush at unmount brings the last data of each block to the disk. -/
theorem cache_implements_block_device (d : Device) (hd : d.disk.Healthy)
    (ops : List (Op ℤ Block)) (hv : ∀ op ∈ ops, ValidBlock op.block) :
    (∀ b pre buf post, ops = pre ++ .write b buf :: post → (∀ op ∈ post, op.Keeps b) →
      (readCached (cacheRun (initCache d) ops) b).2 = buf) ∧
    (∀ b, ValidBlock b → (∀ buf, Op.write b buf ∉ ops) →
      (readCached (cacheRun (initCache d) ops) b).2 = d.disk.image (writeOffset + b)) ∧
    (∀ b op, ValidBlock b → ValidBlock op.block → op.block ≠ b →
      (readCached (cacheStep (cacheRun (initCache d) ops) op) b).2 =
        (readCached (cacheRun (initCache d) ops) b).2) ∧
    (∀ p, Transfer.write p ∈ (flushCache (cacheRun (initCache d) ops)).disk.log →
      Transfer.write p ∈ d.disk.log ∨ ∃ b buf, Op.write b buf ∈ ops ∧ p = writeOffset + b) ∧
    ∀ b pre buf post, ops = pre ++ .write b buf :: post → (∀ op ∈ post, op.Keeps b) →
      (flushCache (cacheRun (initCache d) ops)).disk.image (writeOffset + b) = buf := by
  have hinit := initCache_ok hd
  have hok : CacheOk (cacheRun (initCache d) ops) := by
    rw [cacheRun_eq]
    exact BlockDevice.run_ok (d := device) hinit hv
  have htrace := cacheRun_traced (Traced.init d) hv
  rw [Set.empty_union] at htrace
  have hlast : ∀ b pre buf post, ops = pre ++ .write b buf :: post → (∀ op ∈ post, op.Keeps b) →
      ValidBlock b ∧ cachedView (cacheRun (initCache d) ops) b = buf := by
    intro b pre buf post hsplit hkeep
    refine ⟨hv (.write b buf) (by simp [hsplit]), ?_⟩
    rw [cacheRun_eq, hsplit]
    exact BlockDevice.run_view_last (d := device) hinit (by rwa [hsplit] at hv) hkeep
  refine ⟨fun b pre buf post hsplit hkeep => ?_, fun b hb hnone => ?_, fun b op hb hop hne => ?_,
    fun p hp => ?_, fun b pre buf post hsplit hkeep => ?_⟩
  · obtain ⟨hb, hview⟩ := hlast b pre buf post hsplit hkeep
    rw [readCached_val hok hb, hview]
  · rw [readCached_val hok hb]
    refine htrace.view_of_not_mem hok hb ?_
    rintro ⟨buf, hmem⟩
    exact hnone buf hmem
  · have hstep : CacheOk (cacheStep (cacheRun (initCache d) ops) op) := by
      rw [cacheStep_eq]
      exact BlockDevice.step_ok (d := device) hok hop
    rw [readCached_val hstep hb, readCached_val hok hb, cacheStep_eq]
    exact BlockDevice.step_view (d := device) hok hop hb (Op.keeps_of_block_ne hne)
  · rcases (htrace.flushCache hok).log p hp with hp | ⟨b, ⟨buf, hb⟩, he⟩
    · exact Or.inl hp
    · exact Or.inr ⟨b, buf, hb, he⟩
  · obtain ⟨hb, hview⟩ := hlast b pre buf post hsplit hkeep
    rw [flushCache_image hok hb, hview]

/-- Two blocks of one slot, the first of them read back from the disk. -/
theorem cache_implements_block_device_collision :
    (readCached (cacheRun (initCache blankDevice)
      [.write 0 fun _ => 1, .write 32768 fun _ => 2, .read 0]) 0).2 = fun _ => 1 := by
  obtain ⟨hread, -⟩ := cache_implements_block_device blankDevice (fun _ => rfl)
    [.write 0 fun _ => 1, .write 32768 fun _ => 2, .read 0] fun op hop => by
      simp only [List.mem_cons, List.not_mem_nil, or_false] at hop
      rcases hop with rfl | rfl | rfl <;> exact ⟨by decide, by decide⟩
  refine hread 0 [] (fun _ => 1) [.write 32768 fun _ => 2, .read 0] rfl fun op hop => ?_
  simp only [List.mem_cons, List.not_mem_nil, or_false] at hop
  rcases hop with rfl | rfl
  · exact (by decide : (32768 : ℤ) ≠ 0)
  · trivial

end OsAssignments.BlockCache
