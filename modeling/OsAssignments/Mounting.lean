import OsAssignments.Slots

/-!
# Mounting and unmounting

`objstore_init` reads the object table from the first 4048 bytes of each table
block, then the two bitmaps; `objstore_destroy` writes the marked table blocks,
the dirty cache slots and both bitmaps. The lemmas say where each byte of the
image comes from after the one and goes to in the other.
-/
namespace OsAssignments

open ByteMemory Bitmap ObjectTable Builds
open BlockCache (ValidBlock initCache)

variable {build : Build} {d : Device} {s : Store}

section Init

/-- Byte `a` of the table when `k` table blocks are read. -/
def tableByte (image : ℤ → Block) (k a : ℕ) : UInt8 :=
  if a < 4048 * k then bytes (image ((a / 4048 : ℕ) : ℤ)) (a % 4048) else 0

/-- Word `w` of a bitmap when `k` blocks from block `start` on are read. -/
def bitmapWord (image : ℤ → Block) (start k : ℕ) (w : ℤ) : BitVec 32 :=
  if 0 ≤ w ∧ w < 1024 * k then blockWord (image (w / 1024 + start)) (w % 1024).toNat else 0#32

/-- The first `k` table blocks of `disk` are read. -/
structure TableRead (disk : Disk) (k : ℕ) (t : Disk × Block × Memory) : Prop where
  healthy : t.1.Healthy
  image : t.1.image = disk.image
  objs : t.2.2 = tableByte disk.image k

/-- The first `k` blocks of a bitmap of `disk` are read. -/
structure WordsRead (disk : Disk) (start k : ℕ) (t : Disk × Words) : Prop where
  healthy : t.1.Healthy
  image : t.1.image = disk.image
  words : t.2 = bitmapWord disk.image start k

lemma initTable_upto {disk : Disk} (h : disk.Healthy) (k : ℕ) :
    TableRead disk k ((List.range k).foldl initTable (disk, fun _ => 0, fun _ => 0)) := by
  induction k with
  | zero => exact ⟨h, rfl, by funext a; simp [tableByte]⟩
  | succ k ih =>
    rw [List.range_succ, List.foldl_append, List.foldl_cons, List.foldl_nil]
    generalize (List.range k).foldl initTable (disk, fun _ => 0, fun _ => 0) = t at ih
    have hread := readBlock_val ih.healthy (p := (k : ℤ)) (by omega) t.2.1
    refine ⟨ih.healthy.readBlock _ _, (readBlock_image _ _ _).trans ih.image, ?_⟩
    funext a
    simp only [initTable, hread, ih.image, ih.objs, tableByte]
    by_cases hin : k * 4048 ≤ a ∧ a < k * 4048 + 4048
    · have hq : a / 4048 = k := by omega
      rw [storeBytes_of_mem hin, if_pos (by omega), hq]
      congr 1
      omega
    · rw [storeBytes_of_not_mem (by omega), tableByte]
      split_ifs <;> first | rfl | omega

lemma initWords_upto {disk : Disk} (h : disk.Healthy) (start k : ℕ) :
    WordsRead disk start k ((List.range k).foldl (initWords start) (disk, fun _ => 0#32)) := by
  induction k with
  | zero => exact ⟨h, rfl, by funext w; rw [bitmapWord, if_neg (by omega)]; rfl⟩
  | succ k ih =>
    rw [List.range_succ, List.foldl_append, List.foldl_cons, List.foldl_nil]
    generalize (List.range k).foldl (initWords start) (disk, fun _ => 0#32) = t at ih
    have hread := readBlock_val ih.healthy (p := ((k + start : ℕ) : ℤ)) (by omega)
      (wordsBlock t.2 k)
    refine ⟨ih.healthy.readBlock _ _, (readBlock_image _ _ _).trans ih.image, ?_⟩
    funext w
    simp only [initWords, hread, ih.image]
    rw [ih.words, bitmapWord, bitmapWord]
    push_cast
    by_cases hin : w / 1024 = k
    · rw [if_pos hin, if_pos (by omega), hin]
    · rw [if_neg hin]
      split_ifs <;> first | rfl | omega

/-- Both bitmaps of `disk` are read. -/
structure FreeRead (disk : Disk) (f : Disk × Words × Words) : Prop where
  healthy : f.1.Healthy
  image : f.1.image = disk.image
  inodes : f.2.1 = bitmapWord disk.image objectBlock inodeBitBlocks
  data : f.2.2 = bitmapWord disk.image (objectBlock + 31) dataBlocks

lemma FreeRead.of_words {disk : Disk} {u v : Disk × Words}
    (hu : WordsRead disk objectBlock inodeBitBlocks u)
    (hv : WordsRead u.1 (objectBlock + 31) dataBlocks v) : FreeRead disk (v.1, u.2, v.2) := by
  refine ⟨hv.healthy, hv.image.trans hu.image, hu.words, ?_⟩
  rw [← hu.image]
  exact hv.words

lemma initObjs_read {disk : Disk} (h : disk.Healthy) :
    TableRead disk objectBlock (initObjs disk) := initTable_upto h objectBlock

lemma initFree_read {disk : Disk} (h : disk.Healthy) : FreeRead disk (initFree disk) := by
  have hu := initWords_upto h objectBlock inodeBitBlocks
  have hf := FreeRead.of_words hu (initWords_upto hu.healthy (objectBlock + 31) dataBlocks)
  exact hf

/-- The state of a mount. -/
structure Mounted (d : Device) (s : Store) : Prop where
  dev : ∃ disk : Disk, s.dev = initCache { d with disk := disk } ∧ disk.Healthy ∧
    disk.image = d.disk.image
  objs : s.objs = tableByte d.disk.image objectBlock
  inodes : s.bitMapInode = bitmapWord d.disk.image objectBlock inodeBitBlocks
  data : s.bitMapData = bitmapWord d.disk.image (objectBlock + 31) dataBlocks
  dirty : s.dBitMap = fun _ => false
  temp : s.temp = none
  lock : s.lockData = false

lemma mountWith_mounted {t : Disk × Block × Memory} {f : Disk × Words × Words}
    (ht : TableRead d.disk objectBlock t) (hf : FreeRead t.1 f) : Mounted d (mountWith d t f) := by
  have hinodes := hf.inodes
  have hdata := hf.data
  rw [ht.image] at hinodes hdata
  exact ⟨⟨f.1, rfl, hf.healthy, hf.image.trans ht.image⟩, ht.objs, hinodes, hdata, rfl, rfl, rfl⟩

theorem objstoreInit_mounted (h : d.disk.Healthy) : Mounted d (objstoreInit d) :=
  mountWith_mounted (initObjs_read h) (initFree_read (initObjs_read h).healthy)

end Init

section Destroy

/-- The marked blocks among the first `k` of the table are written. -/
structure TableWritten (s : Store) (d : Disk) (k : ℕ) (d' : Disk) : Prop where
  healthy : d'.Healthy
  table : ∀ i : ℕ, i < k → d'.image i = if s.dBitMap i then tablePage s.objs i else d.image i
  other : ∀ p : ℤ, p < 0 ∨ k ≤ p → d'.image p = d.image p

/-- The first `k` blocks of a bitmap are written from block `start` on. -/
structure WordsWritten (start : ℕ) (w : Words) (d : Disk) (k : ℕ) (d' : Disk) : Prop where
  healthy : d'.Healthy
  words : ∀ i : ℕ, i < k → d'.image (start + i : ℕ) = wordsBlock w i
  other : ∀ p : ℤ, p < start ∨ start + k ≤ p → d'.image p = d.image p

lemma destroyTable_upto {disk : Disk} (h : disk.Healthy) (k : ℕ) :
    TableWritten s disk k ((List.range k).foldl (destroyTable s) disk) := by
  induction k with
  | zero => exact ⟨h, fun i hi => by omega, fun p _ => rfl⟩
  | succ k ih =>
    rw [List.range_succ, List.foldl_append, List.foldl_cons, List.foldl_nil]
    generalize (List.range k).foldl (destroyTable s) disk = t at ih
    have hk := ih.other k (Or.inr le_rfl)
    unfold destroyTable
    split_ifs with hd
    · refine ⟨ih.healthy.writeBlock _ _, fun i hi => ?_, fun p hp => ?_⟩
      · by_cases hik : i = k
        · subst hik
          rw [writeBlock_image ih.healthy (by omega), Function.update_self, if_pos hd]
        · rw [writeBlock_image_ne _ (by exact_mod_cast hik), ih.table i (by omega)]
      · push_cast at hp
        rw [writeBlock_image_ne _ (by omega), ih.other p (by omega)]
    · refine ⟨ih.healthy, fun i hi => ?_, fun p hp => ih.other p (by push_cast at hp; omega)⟩
      by_cases hik : i = k
      · subst hik
        rw [if_neg hd, hk]
      · exact ih.table i (by omega)

lemma destroyWords_upto {disk : Disk} (h : disk.Healthy) (start : ℕ) (w : Words) (k : ℕ) :
    WordsWritten start w disk k ((List.range k).foldl (destroyWords start w) disk) := by
  induction k with
  | zero => exact ⟨h, fun i hi => by omega, fun p _ => rfl⟩
  | succ k ih =>
    rw [List.range_succ, List.foldl_append, List.foldl_cons, List.foldl_nil]
    generalize (List.range k).foldl (destroyWords start w) disk = t at ih
    unfold destroyWords
    refine ⟨ih.healthy.writeBlock _ _, fun i hi => ?_, fun p hp => ?_⟩
    · by_cases hik : i = k
      · subst hik
        rw [add_comm start, writeBlock_image ih.healthy (by omega), Function.update_self]
      · rw [writeBlock_image_ne _ (by omega), ih.words i (by omega)]
    · push_cast at hp ⊢
      rw [writeBlock_image_ne _ (by omega), ih.other p (by omega)]

/-- What an unmount leaves on the disk. -/
structure Unmounted (build : Build) (s : Store) (d : Device) : Prop where
  healthy : d.disk.Healthy
  table : ∀ i : ℕ, i < objectBlock →
    d.disk.image i = if s.dBitMap i then tablePage s.objs i else s.dev.disk.image i
  inodes : ∀ i : ℕ, i < inodeBitBlocks →
    d.disk.image (objectBlock + i : ℕ) = wordsBlock s.bitMapInode i
  data : ∀ i : ℕ, i < dataBlocks →
    d.disk.image (objectBlock + 31 + i : ℕ) = wordsBlock s.bitMapData i
  blocks : ∀ b, ValidBlock b → d.disk.image (writeOffset + b) = (device build).view s.dev b

/-- The data blocks lie behind the table and the bitmaps. -/
lemma layout : (objectBlock : ℤ) = 22528 ∧ (inodeBitBlocks : ℤ) = 31 ∧ (dataBlocks : ℤ) = 256 ∧
    writeOffset = 22815 := ⟨rfl, rfl, rfl, rfl⟩

lemma TableWritten.data_block {t disk : Disk} (h : TableWritten s disk objectBlock t) {b : ℤ}
    (hb : ValidBlock b) : t.image (writeOffset + b) = disk.image (writeOffset + b) := by
  obtain ⟨hob, -, -, hw⟩ := layout
  have := hb.1
  exact h.other _ (by omega)

lemma WordsWritten.data_block {start k : ℕ} {w : Words} {u disk : Disk}
    (h : WordsWritten start w disk k u) (hk : (start : ℤ) + k ≤ writeOffset) {b : ℤ}
    (hb : ValidBlock b) : u.image (writeOffset + b) = disk.image (writeOffset + b) := by
  have := hb.1
  exact h.other _ (by omega)

/-- The table is written before the flush, the bitmaps after it. -/
lemma Unmounted.of_parts {t u v : Disk} {dev : Device}
    (ht : TableWritten s s.dev.disk objectBlock t) (hf : Flushed build s.dev t dev)
    (hu : WordsWritten objectBlock s.bitMapInode dev.disk inodeBitBlocks u)
    (hv : WordsWritten (objectBlock + 31) s.bitMapData u dataBlocks v) :
    Unmounted build s { dev with disk := v } := by
  obtain ⟨hob, hib, hdb, hw⟩ := layout
  refine ⟨hv.healthy, fun i hi => ?_, fun i hi => ?_, fun i hi => hv.words i hi, fun b hb => ?_⟩
  · rw [hv.other _ (by push_cast; omega), hu.other _ (by omega), hf.low _ (by omega), ht.table i hi]
  · rw [hv.other _ (by push_cast; omega), hu.words i hi]
  · rw [hv.data_block (by push_cast; omega) hb, hu.data_block (by omega) hb, hf.blocks b hb]

theorem objstoreDestroy_unmounted (hok : (device build).Ok s.dev) :
    Unmounted build s (objstoreDestroy s) := by
  have ht : TableWritten s s.dev.disk objectBlock (writeObjs s s.dev.disk) :=
    destroyTable_upto (device_healthy hok) objectBlock
  have hf := flush_foreign hok ht.healthy fun b hb => ht.data_block hb
  have hu := destroyWords_upto hf.healthy objectBlock s.bitMapInode inodeBitBlocks
  have hv := destroyWords_upto hu.healthy (objectBlock + 31) s.bitMapData dataBlocks
  have hparts := Unmounted.of_parts ht hf hu hv
  exact hparts

end Destroy

end OsAssignments
