import OsAssignments.LastWrite

/-!
# The layout of an object on the disk

The writer divides the index of a logical block into a pointer and an entry; the reader
computes no index and walks the pointers instead. In the build without the cache both
arrive at the same slot: every byte read comes from the disk block that the slot of its
logical block references, and the blocks of a range are read once each, in order.
-/
namespace OsAssignments.Layout

open ByteMemory Bitmap ObjectTable Builds
open LastWrite (firstWritten firstWritten_ok)

variable {s : Store} {d : Device} {n L z b size offset : ℕ} {ptr : ℤ}

/-- The disk block that a pointer references. A negative one references none: the
transfer fails and leaves the fresh page, which is zero. -/
def diskPage (d : Disk) (ptr : ℤ) : Block := if ptr < 0 then fun _ => 0 else d.image ptr

/-- The slot that `objstore_write` computes for logical block `L`. -/
def slot (s : Store) (n L : ℕ) : ℤ :=
  if L < 4 then direct s.objs n L
  else entry (diskPage s.dev.disk (indirect s.objs n ((L - 4) / 1024))) ((L - 4) % 1024)

section Fetches

/-- Between the two devices the disk kept its contents, and its transfers succeed. -/
structure SameImage (d d' : Device) : Prop where
  healthy : d'.disk.Healthy
  image : d'.disk.image = d.disk.image

lemma fetch_page (h : d.disk.Healthy) : (fetch .objfs d ptr).2 = diskPage d.disk ptr := by
  have hptr : writeOffset + (ptr - writeOffset) = ptr := by omega
  rw [fetch, loadBlock, diskPage]
  simp only [hptr]
  split_ifs with hneg
  · have hrefused : d.disk.refuses ptr = true := by simp [Disk.refuses, hneg]
    rw [readBlock, if_pos hrefused]
  · exact readBlock_val h (not_lt.mp hneg) _

lemma SameImage.refl (h : d.disk.Healthy) : SameImage d d := ⟨h, rfl⟩

lemma SameImage.fetches (d : Device) (ptr : ℤ) :
    Fetches .objfs (SameImage d) ptr (diskPage d.disk ptr) := by
  intro d' h
  refine ⟨⟨h.healthy.readBlock _ _, (readBlock_image _ _ _).trans h.image⟩, ?_⟩
  rw [fetch_page h.healthy, diskPage, diskPage, h.image]

/-- Without the cache every fetch is a transfer from the block of its pointer. -/
lemma fetchAll_log (d : Device) (ptrs : List ℤ) :
    (fetchAll .objfs d ptrs).disk.log = (ptrs.map .read).reverse ++ d.disk.log := by
  induction ptrs generalizing d with
  | nil => rfl
  | cons ptr ptrs ih =>
    have hptr : writeOffset + (ptr - writeOffset) = ptr := by omega
    have hlog : (fetch .objfs d ptr).1.disk.log = .read ptr :: d.disk.log := by
      rw [fetch, loadBlock]
      simp only [readBlock_log, hptr]
    refine (ih _).trans ?_
    rw [hlog, List.map_cons, List.reverse_cons, List.append_assoc]
    rfl

end Fetches

/-- The bytes of a run of pages one by one. -/
lemma pageBytes_get {pages : ℕ → Block} {k : ℕ} (hk : k < size) :
    (pageBytes pages size)[k]? = some (pages (k / blockSize) (Fin.ofNat blockSize k)) := by
  rw [pageBytes, List.getElem?_map, List.getElem?_range hk]
  rfl

/-- What a read of the object in slot `n` returns and transfers. Byte `k` is byte
`k % 4096` of the disk block that the slot of its logical block references; `plan` lists
the transfers, tables (`inl`) and logical blocks (`inr`), and has each logical block of
the range once, in order. -/
structure LaidOut (s : Store) (n size offset : ℕ) (s' : Store) (bytes : List UInt8)
    (plan : List (ℕ ⊕ ℕ)) : Prop where
  read : objstoreRead .objfs s (n + 2) size offset = some (s', (size : ℤ), bytes)
  length : bytes.length = size
  byte : ∀ k < size, bytes[k]? = some (diskPage s.dev.disk
    (slot s n (offset / blockSize + k / blockSize)) (Fin.ofNat blockSize k))
  log : s'.dev.disk.log =
    (plan.map fun x => .read (Sum.elim (indirect s.objs n) (slot s n) x)).reverse ++ s.dev.disk.log
  blocks : plan.filterMap Sum.getRight? = List.range' (offset / blockSize) (totalBlocks size)

/-- Reader and writer agree on the layout, whatever the record and the disk hold. -/
theorem read_layout (s : Store) (n size offset : ℕ) (hdisk : s.dev.disk.Healthy) (hn : InObjs n)
    (hrange : offset / blockSize + totalBlocks size ≤ 4100) :
    ∃ s' bytes plan, LaidOut s n size offset s' bytes plan := by
  have hinside : ∀ i < totalBlocks size, offset / blockSize + i < 4100 := fun i hi => by omega
  obtain ⟨dev, hread, -, hfetched⟩ := objstoreRead_loop hn
    (fun j => diskPage s.dev.disk (indirect s.objs n j))
    (fun i => diskPage s.dev.disk (slot s n (offset / blockSize + i))) (SameImage.refl hdisk)
    hinside (fun j _ _ _ d hd => (SameImage.fetches s.dev _ d hd).1)
    (fun i _ _ d hd => (SameImage.fetches s.dev _ d hd).2) fun i _ => SameImage.fetches s.dev _
  refine ⟨_, _, readPlan (offset / blockSize) (totalBlocks size), hread, by simp [pageBytes],
    fun k hk => pageBytes_get hk, ?_, readPlan_blocks hrange⟩
  rw [objstoreRead_fetches hread, fetchAll_log, hfetched, List.map_map]
  rfl

/-- Two blocks of a first object, one behind a direct pointer and one behind a table. -/
theorem read_layout_straddling :
    ∃ s' bytes plan, LaidOut (firstWritten 4) 0 8192 12288 s' bytes plan := by
  have hok : StoreOk .objfs True (firstWritten 4) := firstWritten_ok (by norm_num)
  exact read_layout (firstWritten 4) 0 8192 12288 hok.device.healthy (by decide) (by decide)

section Writer

variable {strict : Prop} {buf : Memory}

/-- A data block is seen on the disk. -/
lemma diskPage_view (hv : BlockCache.ValidBlock (ptr - writeOffset)) :
    diskPage s.dev.disk ptr = view .objfs s (ptr - writeOffset) := by
  have hpos : ¬ptr < 0 := by
    have := hv.1
    have := writeOffset_eq
    omega
  rw [diskPage, if_neg hpos]
  simp only [view, device, uncached, add_sub_cancel]

/-- The slot of a mapped block is its reference. -/
lemma slot_eq_value (h : StoreOk .objfs strict s) (hL : L < 4100)
    (hne : value .objfs s (.ofBlock n L) ≠ 0) : slot s n L = value .objfs s (.ofBlock n L) := by
  rw [← slotIn_eq hL hne, slot, slotIn]
  split_ifs with h4
  · rfl
  · rw [diskPage_view (h.indirect_valid (by omega) (table_ne_zero h4 hL hne))]

/-- A write to an unmapped block stores its page in the disk block that the reader's slot
references then. -/
theorem write_fills_slot (buf : Memory) (h : StoreOk .objfs strict s) (hlive : s.live n = true)
    (hin : WriteInBounds s n (offset / blockSize) z)
    (hv : value .objfs s (.ofBlock n (offset / blockSize)) = 0)
    (hfree : writeCost s n (offset / blockSize) ≤ (freeBits s.bitMapData dataBits).card) :
    ∃ s', objstoreWrite .objfs s (n + 2) buf z offset = some (s', (z : ℤ)) ∧
      diskPage s'.dev.disk (slot s' n (offset / blockSize)) = bufferPage buf z := by
  obtain ⟨s', b, hwrite, hok, hfill, -⟩ := objstoreWrite_fresh buf offset h hlive hin hv hfree
  have hval : value .objfs s' (.ofBlock n (offset / blockSize)) = writeOffset + b := by
    rw [hfill.data _ (Ref.isData_ofBlock _ _), if_pos rfl]
  have hslot : slot s' n (offset / blockSize) = writeOffset + b :=
    (slot_eq_value hok hin.2.2.1 (hval ▸ position_ne_zero b)).trans hval
  have hvalid := hok.valid (r := .ofBlock n (offset / blockSize)) (hval ▸ position_ne_zero b)
  refine ⟨s', hwrite, ?_⟩
  rw [hval] at hvalid
  rw [hslot, diskPage_view hvalid, position_sub]
  exact hfill.here

end Writer

end OsAssignments.Layout
