import OsAssignments.Reading
import OsAssignments.WriteCases

/-!
# The byte range of a write

`objstore_write` puts the bytes of the caller at the start of a zero page, wherever in
the block the offset points, and the new page takes the place of the old block. What the
block held outside the range is not copied. A rewritten direct block is not even that
page: its pointer names the disk block with the number of the new data block.
-/
namespace OsAssignments.ByteRanges

open ByteMemory Bitmap ObjectTable Builds
open BlockCache (ValidBlock readCached refill slot_bounds validBlock_iff writeBack writeBack_healthy
  writeCached_eq)

variable {build : Build} {s s' : Store} {d d' : Device} {n k z b offset : ℕ} {p page : Block}
  {buf : Memory} {old : Set ℕ}

/-- Logical block `L` of the object in slot `n` as a read fetches it. -/
def pageOf (build : Build) (s : Store) (n L : ℕ) : Block :=
  (fetch build s.dev (value build s (.ofBlock n L))).2

/-- Byte `x` of the object. -/
def byteOf (build : Build) (s : Store) (n x : ℕ) : UInt8 :=
  pageOf build s n (x / blockSize) (Fin.ofNat blockSize x)

section Reads

/-- Pages from block `p` on, as bytes of the object. -/
lemma pageBytes_byteOf (p size : ℕ) : pageBytes (fun i => pageOf build s n (p + i)) size =
    (List.range size).map fun i => byteOf build s n (blockSize * p + i) := by
  refine List.map_congr_left fun i _ => ?_
  have hpage : (4096 * p + i) / 4096 = p + i / 4096 := by omega
  have hplace : (Fin.ofNat blockSize (blockSize * p + i)) = Fin.ofNat blockSize i :=
    Fin.ext (Nat.mul_add_mod blockSize p i)
  rw [byteOf, hplace]
  show _ = pageOf build s n ((4096 * p + i) / 4096) _
  rw [hpage]

/-- The bytes that `objstore_read` returns for a range of mapped blocks. -/
theorem read_bytes (h : StoreOk build False s) (hin : InObjs n) {size : ℕ}
    (hmapped : ∀ i < totalBlocks size, offset / blockSize + i < 4100 ∧
      value build s (.ofBlock n (offset / blockSize + i)) ≠ 0)
    (htables : ∀ j < 4, 4 + 1024 * j < offset / blockSize + totalBlocks size →
      Readable build (indirect s.objs n j - writeOffset)) :
    ∃ s', objstoreRead build s (n + 2) size offset = some (s', (size : ℤ),
      (List.range size).map fun i => byteOf build s n (blockSize * (offset / blockSize) + i)) := by
  obtain ⟨dev, hread, -⟩ := objstoreRead_spec h hin hmapped htables
  have hpages : ∀ i < totalBlocks size, blockOf build s n (offset / blockSize + i) =
      pageOf build s n (offset / blockSize + i) := by
    intro i hi
    exact (loadBlock_val h.device (h.valid (hmapped i hi).2)).symm
  rw [pageBytes_congr hpages, pageBytes_byteOf] at hread
  exact ⟨_, hread⟩

/-- The same for part of a page behind a direct pointer, in any store. -/
theorem read_bytes_direct (build : Build) (s : Store) (hin : InObjs n) {size : ℕ}
    (hk : offset / blockSize < 4) (hone : totalBlocks size = 1) :
    ∃ s', objstoreRead build s (n + 2) size offset = some (s', (size : ℤ),
      (List.range size).map fun i => byteOf build s n (blockSize * (offset / blockSize) + i)) := by
  obtain ⟨dev, hread⟩ := objstoreRead_direct build s hin rfl hk hone
  have hpages : ∀ i < totalBlocks size,
      (loadBlock build s.dev (direct s.objs n (offset / blockSize) - writeOffset)).2 =
        pageOf build s n (offset / blockSize + i) := by
    intro i hi
    obtain rfl : i = 0 := by omega
    rw [pageOf, Nat.add_zero, value_ofBlock_lt hk, fetch]
  rw [pageBytes_congr hpages, pageBytes_byteOf] at hread
  exact ⟨_, hread⟩

end Reads

/-- From `s` to `s'` the range got the bytes of the caller, and the other bytes of `old` stayed. -/
structure RangeOnly (build : Build) (s s' : Store) (n : ℕ) (buf : Memory) (z offset : ℕ)
    (old : Set ℕ) : Prop where
  new : ∀ i < z, byteOf build s' n (offset + i) = buf i
  kept : ∀ x ∈ old, x < offset ∨ offset + z ≤ x → byteOf build s' n x = byteOf build s n x

/-- The write succeeds and changes its own byte range only, of the bytes `old` that had
been written before. -/
def WritesRange (build : Build) (s : Store) (n : ℕ) (buf : Memory) (z offset : ℕ)
    (old : Set ℕ) : Prop :=
  ∃ s', objstoreWrite build s (n + 2) buf z offset = some (s', (z : ℤ)) ∧
    RangeOnly build s s' n buf z offset old

/-- `page` has the bytes of the write, and outside its range the old bytes of the block. -/
structure Provides (build : Build) (s : Store) (n : ℕ) (buf : Memory) (z offset : ℕ)
    (old : Set ℕ) (page : Block) : Prop where
  new : ∀ i < z, page (Fin.ofNat blockSize (offset + i)) = buf i
  kept : ∀ x ∈ old, x / blockSize = offset / blockSize → x < offset ∨ offset + z ≤ x →
    page (Fin.ofNat blockSize x) = byteOf build s n x

/-- Logical block `k` is mapped by a direct pointer. -/
def MappedDirect (s : Store) (n k : ℕ) : Prop := k < 4 ∧ direct s.objs n k ≠ 0

/-- The write starts a page, or writes zeros, and no other byte of its block is set. -/
def Replaceable (build : Build) (s : Store) (n : ℕ) (buf : Memory) (z offset : ℕ)
    (old : Set ℕ) : Prop :=
  (offset % blockSize = 0 ∨ ∀ i < z, buf i = 0) ∧
    ∀ x ∈ old, x / blockSize = offset / blockSize → x < offset ∨ offset + z ≤ x →
      byteOf build s n x = 0

section Pages

lemma bufferPage_apply (x : ℕ) : bufferPage buf z (Fin.ofNat blockSize x) =
    if x % 4096 < z then buf (x % 4096) else 0 := rfl

/-- A page that starts with the bytes has them at `p` as well only where they are zero. -/
lemma shifted_zero {q : ℕ} (hq : q ≠ 0)
    (h : ∀ i < z, (if q + i < z then buf (q + i) else 0) = buf i) : ∀ i < z, buf i = 0 := by
  intro i hi
  induction hj : z - i using Nat.strong_induction_on generalizing i with
  | _ j ih =>
    have hstep := h i hi
    split_ifs at hstep with hin
    · rw [← hstep]
      exact ih (z - (q + i)) (by omega) (q + i) hin rfl
    · exact hstep.symm

/-- The page of a write provides for its block exactly when nothing gets lost. -/
lemma provides_iff (hz : offset % blockSize + z ≤ blockSize) :
    Provides build s n buf z offset old (bufferPage buf z) ↔
      Replaceable build s n buf z offset old := by
  have hz' : offset % 4096 + z ≤ 4096 := hz
  have hnew : ∀ i < z, bufferPage buf z (Fin.ofNat blockSize (offset + i)) =
      if offset % 4096 + i < z then buf (offset % 4096 + i) else 0 := by
    intro i hi
    rw [bufferPage_apply, show (offset + i) % 4096 = offset % 4096 + i by omega]
  constructor
  · intro h
    have hshift : ∀ i < z, (if offset % 4096 + i < z then buf (offset % 4096 + i) else 0) = buf i :=
      fun i hi => (hnew i hi).symm.trans (h.new i hi)
    have hstart : offset % 4096 = 0 ∨ ∀ i < z, buf i = 0 := by
      by_cases hq : offset % 4096 = 0
      · exact Or.inl hq
      · exact Or.inr (shifted_zero hq hshift)
    refine ⟨hstart, fun x hx hblock hout => ?_⟩
    rw [← h.kept x hx hblock hout, bufferPage_apply]
    have hblock' : x / 4096 = offset / 4096 := hblock
    split_ifs with hin
    · rcases hstart with hq | hzero
      · omega
      · exact hzero _ hin
    · rfl
  · rintro ⟨hstart, hkept⟩
    refine ⟨fun i hi => ?_, fun x hx hblock hout => ?_⟩
    · rw [hnew i hi]
      rcases hstart with hq | hzero
      · have hq' : offset % 4096 = 0 := hq
        rw [hq', Nat.zero_add, if_pos hi]
      · split_ifs with hin
        · rw [hzero _ hin, hzero i hi]
        · exact (hzero i hi).symm
    · have hblock' : x / 4096 = offset / 4096 := hblock
      rw [hkept x hx hblock hout, bufferPage_apply]
      split_ifs with hin
      · rcases hstart with hq | hzero
        · have hq' : offset % 4096 = 0 := hq
          omega
        · exact hzero _ hin
      · rfl

/-- From `s` to `s'` logical block `k` was replaced by `page`, and no other mapped block. -/
structure Replaced (build : Build) (s s' : Store) (n k : ℕ) (page : Block) : Prop where
  here : pageOf build s' n k = page
  there : ∀ L < 4100, L ≠ k → value build s (.ofBlock n L) ≠ 0 →
    pageOf build s' n L = pageOf build s n L

/-- After a replacement only the block of the write matters. -/
lemma Replaced.rangeOnly_iff (h : Replaced build s s' n (offset / blockSize) page)
    (hz : offset % blockSize + z ≤ blockSize)
    (hold : ∀ x ∈ old, x / blockSize < 4100 ∧ value build s (.ofBlock n (x / blockSize)) ≠ 0) :
    RangeOnly build s s' n buf z offset old ↔ Provides build s n buf z offset old page := by
  have hz' : offset % 4096 + z ≤ 4096 := hz
  have hhere : ∀ x, x / blockSize = offset / blockSize →
      byteOf build s' n x = page (Fin.ofNat blockSize x) := by
    intro x hx
    rw [byteOf, hx, h.here]
  have hrange : ∀ i < z, (offset + i) / blockSize = offset / blockSize := by
    intro i hi
    show (offset + i) / 4096 = offset / 4096
    omega
  constructor
  · intro hr
    refine ⟨fun i hi => ?_, fun x hx hblock hout => ?_⟩
    · rw [← hhere _ (hrange i hi)]
      exact hr.new i hi
    · rw [← hhere x hblock]
      exact hr.kept x hx hout
  · intro hp
    refine ⟨fun i hi => ?_, fun x hx hout => ?_⟩
    · rw [hhere _ (hrange i hi)]
      exact hp.new i hi
    · by_cases hblock : x / blockSize = offset / blockSize
      · rw [hhere x hblock]
        exact hp.kept x hx hblock hout
      · obtain ⟨hlt, hne⟩ := hold x hx
        rw [byteOf, byteOf, h.there _ hlt hblock hne]

end Pages

section Misnamed

/-- What a transfer leaves of a block depends on that block and the buffer. -/
lemma writeBlock_image_congr {d d' : Disk} (h : d.Healthy) (h' : d'.Healthy) {q r : ℤ} (buf : Block)
    (himage : d'.image r = d.image r) :
    (writeBlock d' q buf).1.image r = (writeBlock d q buf).1.image r := by
  by_cases hq : 0 ≤ q
  · rw [writeBlock_image h hq, writeBlock_image h' hq, Function.update_apply, Function.update_apply,
      himage]
  · have hrefused : ∀ e : Disk, e.refuses q = true := fun e => by simp [Disk.refuses, not_le.mp hq]
    rw [writeBlock, writeBlock, if_pos (hrefused d'), if_pos (hrefused d)]
    exact himage

lemma writeBack_image_congr {o r : ℤ} (h : d.disk.Healthy) (h' : d'.disk.Healthy)
    (harray : d'.cacheArray o = d.cacheArray o) (hdirty : d'.dirtyCache o = d.dirtyCache o)
    (hcache : d'.cache o = d.cache o) (himage : d'.disk.image r = d.disk.image r) :
    (writeBack d' o).disk.image r = (writeBack d o).disk.image r := by
  simp only [writeBack, harray, hdirty, hcache]
  split_ifs
  · exact writeBlock_image_congr h h' _ himage
  · exact himage

/-- The cache cell outside the array that a pointer below the data blocks leads to. -/
lemma fetch_outside {c : ℤ} (hlo : -32768 < c) (hneg : c < 0) (h : d.disk.Healthy)
    (hpos : 0 ≤ writeOffset + c) : (readCached d c).2 =
      if d.cacheArray c ≠ 0 then (writeBack d c).disk.image (writeOffset + c) else d.cache c := by
  have hdiv : c.tdiv cacheBlocks = 0 := by
    rw [← neg_neg c, Int.neg_tdiv,
      Int.tdiv_eq_zero_of_lt (by omega) (by rw [cacheBlocks_eq]; omega),
      neg_zero]
  have hmod : c.tmod cacheBlocks = c := by
    have := Int.mul_tdiv_add_tmod c cacheBlocks
    rw [hdiv] at this
    omega
  simp only [readCached, hdiv, hmod]
  split_ifs
  · exact readBlock_val (writeBack_healthy h) hpos _
  · rfl

/-- Writing data block `b` does not change what a read through pointer `b` finds, which
names another disk block. -/
lemma fetch_misnamed (h : (device build).Ok d) (hb : b < dataBits) :
    (fetch build (storeBlock build d b p) b).2 = (fetch build d b).2 := by
  have hw := writeOffset_eq
  have hvalid := validBlock_ofNat hb
  have hok : (device build).Ok (storeBlock build d b p) := storeBlock_ok h hvalid
  have hh := device_healthy h
  have hh' := device_healthy hok
  by_cases hhigh : writeOffset ≤ b
  · have hc : ValidBlock ((b : ℤ) - writeOffset) := by
      rw [validBlock_iff] at hvalid ⊢
      omega
    rw [fetch, fetch, loadBlock_val hok hc, loadBlock_val h hc, storeBlock_view h hvalid hc,
      if_neg (by omega)]
  · have hlow : (storeBlock build d b p).disk.image b = d.disk.image b :=
      storeBlock_low h hvalid (by omega)
    have hpos : writeOffset + ((b : ℤ) - writeOffset) = b := by omega
    cases build with
    | objfs =>
      simp only [fetch, loadBlock, hpos]
      rw [readBlock_val hh (Int.natCast_nonneg b), readBlock_val hh' (Int.natCast_nonneg b), hlow]
    | objfsCached =>
      have hcell : ((b : ℤ) - writeOffset) ≠ (b : ℤ) % cacheBlocks := by
        have := (slot_bounds (b : ℤ)).1
        omega
      have hstore : storeBlock .objfsCached d b p =
          refill d b (writeBack d ((b : ℤ) % cacheBlocks)).disk p true := writeCached_eq hvalid p
      have harray : (storeBlock .objfsCached d b p).cacheArray (b - writeOffset) =
          d.cacheArray (b - writeOffset) := by
        rw [hstore]
        exact Function.update_of_ne hcell _ _
      have hdirty : (storeBlock .objfsCached d b p).dirtyCache (b - writeOffset) =
          d.dirtyCache (b - writeOffset) := by
        rw [hstore]
        exact Function.update_of_ne hcell _ _
      have hcache : (storeBlock .objfsCached d b p).cache (b - writeOffset) =
          d.cache (b - writeOffset) := by
        rw [hstore]
        exact Function.update_of_ne hcell _ _
      simp only [fetch, loadBlock]
      rw [fetch_outside (by omega) (by omega) hh (by omega),
        fetch_outside (by omega) (by omega) hh' (by omega), hpos,
        writeBack_image_congr hh hh' harray hdirty hcache hlow, harray, hcache]

end Misnamed

section Outcomes

variable (h : StoreOk build False s)
include h

/-- A block that was filled is read as its page. -/
lemma Filled.replaced {grow : ℕ} (hok : (device build).Ok s'.dev) (hb : b < dataBits)
    (hk : k < 4100)
    (hf : Filled build s s' n k grow b p) : Replaced build s s' n k p := by
  refine ⟨?_, fun L hL hne hv => ?_⟩
  · have hval : value build s' (.ofBlock n k) = writeOffset + b := by
      rw [hf.data _ (Ref.isData_ofBlock n k), if_pos rfl]
    rw [pageOf, fetch, hval, position_sub, loadBlock_val hok (validBlock_ofNat hb)]
    exact hf.here
  · have href : Ref.ofBlock n L ≠ Ref.ofBlock n k := fun he => hne (Ref.ofBlock_inj hL hk he).2
    have hval : value build s' (.ofBlock n L) = value build s (.ofBlock n L) := by
      rw [hf.data _ (Ref.isData_ofBlock n L), if_neg href]
    rw [pageOf, pageOf, fetch, fetch, hval, loadBlock_val hok (h.valid hv),
      loadBlock_val h.device (h.valid hv)]
    exact hf.there _ (Ref.isData_ofBlock n L) href hv

/-- Everywhere but at a mapped direct block a write puts its page in place. -/
lemma written_replaced (hlive : s.live n = true) (hin : WriteInBounds s n (offset / blockSize) z)
    (hp : Picks s n (offset / blockSize) b k) (hd : ¬MappedDirect s n (offset / blockSize)) :
    Replaced build s (written build s n (offset / blockSize) z b (bufferPage buf z)) n
      (offset / blockSize) (bufferPage buf z) := by
  have hk' := hin.2.2.1
  by_cases hv : value build s (.ofBlock n (offset / blockSize)) = 0
  · have hwrite : objstoreWrite build s (n + 2) buf z offset = _ := objstoreWrite_hung h hin hv hp
    rw [objstoreWrite_found hp.data hin, Option.some.injEq, Prod.mk.injEq] at hwrite
    obtain ⟨hok, hfill⟩ := hung_spec (z := z) (p := bufferPage buf z) h hlive hk' hv hp
    rw [hwrite.1]
    exact Filled.replaced h hok.device hp.data.1 hk' hfill
  · have hk : ¬offset / blockSize < 4 := fun hlt =>
      hd ⟨hlt, by rwa [value_ofBlock_lt hlt] at hv⟩
    have hne := table_ne_zero hk hk' hv
    obtain ⟨hok, hfill⟩ := swungEntry_filled (z := z) (p := bufferPage buf z) h hp.data hk hk' hne
    rw [Ref.ofBlock_entry hk hk', value, if_neg hne] at hv
    rw [written, if_neg hk, writeIndirect_old h hp.data.1 hp.data.clear hk' hne, if_neg hv]
    exact Filled.replaced h hok hp.data.1 hk' hfill

/-- A direct pointer that names no data block is read from the disk block of its number,
and the other blocks of the object are as they were. -/
lemma misnamed_replaced (hb : FirstFree s.bitMapData dataBits b) (hk : k < 4)
    (hobjs : s'.objs = setPointer s.objs n k b) (hdev : s'.dev = storeBlock build s.dev b p) :
    Replaced build s s' n k (fetch build s.dev b).2 := by
  have hdata := dataBits_eq
  have hlt := hb.1
  have hvalid := validBlock_ofNat hlt
  have hpointer : ∀ j, j < 8 →
    pointer s'.objs n j = if k = j then (b : ℤ) else pointer s.objs n j := by
    intro j hj
    rw [hobjs, pointer_setPointer (by omega) hj (by omega)]
    simp only [true_and]
  have hview : ∀ x, ValidBlock x → x ≠ b → view build s' x = view build s x := by
    intro x hx hne
    rw [view, hdev, storeBlock_view h.device hvalid hx, if_neg hne]
  refine ⟨?_, fun L hL hLk hv => ?_⟩
  · rw [pageOf, value_ofBlock_lt hk, direct, hpointer k (by omega), if_pos rfl, hdev]
    exact fetch_misnamed h.device hlt
  · have hval : value build s' (.ofBlock n L) = value build s (.ofBlock n L) := by
      by_cases h4 : L < 4
      · rw [value_ofBlock_lt h4, value_ofBlock_lt h4, direct, hpointer L (by omega),
          if_neg (Ne.symm hLk)]
      · rw [Ref.ofBlock_entry h4 hL]
        refine value_entry_congr ((hpointer _ (by omega)).trans (if_neg (by omega))) fun hz => ?_
        exact hview _ (h.indirect_valid (by omega) hz) (h.indirect_ne_free (by omega) hz hb.clear)
    have hok : (device build).Ok s'.dev := hdev ▸ storeBlock_ok h.device hvalid
    rw [pageOf, pageOf, fetch, fetch, hval, loadBlock_val hok (h.valid hv),
      loadBlock_val h.device (h.valid hv)]
    exact hview _ (h.valid hv) (h.value_ne_free hb.clear)

lemma written_misnamed (hb : FirstFree s.bitMapData dataBits b) (hd : MappedDirect s n k) :
    Replaced build s (written build s n k z b p) n k (fetch build s.dev b).2 := by
  have hptr : direct (placed build s n b p).objs n k ≠ 0 := hd.2
  rw [written, if_pos hd.1, writeDirect, if_neg hptr]
  exact misnamed_replaced h hb hd.1 rfl rfl

end Outcomes

/-- When a write changes its own byte range only. -/
theorem writes_range_iff (build : Build) (s : Store) (n : ℕ) (buf : Memory) (z offset : ℕ)
    (old : Set ℕ) (h : StoreOk build False s) (hlive : s.live n = true)
    (hz : offset % blockSize + z ≤ blockSize) (hk : offset / blockSize < 4100)
    (hold : ∀ x ∈ old, x / blockSize < 4100 ∧ value build s (.ofBlock n (x / blockSize)) ≠ 0)
    (hfree : writeCost s n (offset / blockSize) ≤ (freeBits s.bitMapData dataBits).card) :
    WritesRange build s n buf z offset old ↔
      InObjs n ∧ s.lockData = false ∧
        (¬MappedDirect s n (offset / blockSize) → Replaceable build s n buf z offset old) ∧
        (MappedDirect s n (offset / blockSize) → ∀ b, FirstFree s.bitMapData dataBits b →
          Provides build s n buf z offset old (fetch build s.dev b).2) := by
  have hz' : offset % 4096 + z ≤ 4096 := hz
  obtain ⟨b, t, hp⟩ := exists_picks hfree
  -- a write that returns is this one, and replaces the block by one page or the other
  have hsteps : ∀ (hin : WriteInBounds s n (offset / blockSize) z) s',
      objstoreWrite build s (n + 2) buf z offset = some (s', (z : ℤ)) →
        (RangeOnly build s s' n buf z offset old ↔
          (¬MappedDirect s n (offset / blockSize) → Replaceable build s n buf z offset old) ∧
          (MappedDirect s n (offset / blockSize) → ∀ b, FirstFree s.bitMapData dataBits b →
            Provides build s n buf z offset old (fetch build s.dev b).2)) := by
    intro hin s' hwrite
    rw [objstoreWrite_found hp.data hin, Option.some.injEq, Prod.mk.injEq] at hwrite
    rw [← hwrite.1]
    by_cases hd : MappedDirect s n (offset / blockSize)
    · rw [(written_misnamed h hp.data hd).rangeOnly_iff hz hold]
      exact ⟨fun hprov => ⟨fun hn => absurd hd hn, fun _ c hc => hp.data.unique hc ▸ hprov⟩,
        fun hcond => hcond.2 hd b hp.data⟩
    · rw [(written_replaced h hlive hin hp hd).rangeOnly_iff hz hold, provides_iff hz]
      exact ⟨fun hrep => ⟨fun _ => hrep, fun hn => absurd hn hd⟩, fun hcond => hcond.1 hd⟩
  constructor
  · rintro ⟨s', hwrite, hrange⟩
    have hin := objstoreWrite_inBounds hwrite
    exact ⟨hin.2.1, hin.2.2.2, (hsteps hin s' hwrite).mp hrange⟩
  · rintro ⟨hn, hlock, hcond⟩
    have hin : WriteInBounds s n (offset / blockSize) z := ⟨by omega, hn, hk, hlock⟩
    exact ⟨_, objstoreWrite_found hp.data hin,
      (hsteps hin _ (objstoreWrite_found hp.data hin)).mpr hcond⟩

section Examples

/-- The first object of an empty store. -/
abbrev firstObject : Store := created (objstoreInit blankDevice) 0 keyA

lemma firstObject_ok : StoreOk .objfs False firstObject :=
  (objstoreInit_empty blankDevice_blank).createdOk (by decide)

lemma firstObject_live : firstObject.live 0 = true := by simp [live_created]

lemma firstObject_unmapped : ¬MappedDirect firstObject 0 0 := by
  rintro ⟨-, hne⟩
  have hvalue : value .objfs firstObject (.ofBlock 0 0) = 0 :=
    (objstoreInit_empty blankDevice_blank).createdValue (by decide) _
  rw [value_ofBlock_lt (by norm_num)] at hvalue
  exact hne hvalue

lemma firstObject_cost :
    writeCost firstObject 0 0 ≤ (freeBits firstObject.bitMapData dataBits).card :=
  (objstoreInit_empty blankDevice_blank).createdCost 0 0

/-- The first page of a new object. -/
theorem writes_range_iff_first : WritesRange .objfs firstObject 0 (fun _ => 1) blockSize 0 ∅ := by
  have hlock : firstObject.lockData = false := (objstoreInit_empty blankDevice_blank).lock
  exact (writes_range_iff .objfs firstObject 0 (fun _ => 1) blockSize 0 ∅ firstObject_ok
    firstObject_live (by norm_num) (by norm_num) (fun x hx => hx.elim) firstObject_cost).mpr
    ⟨by decide, hlock, fun _ => ⟨Or.inl (by norm_num), fun x hx => hx.elim⟩,
      fun hd => absurd hd firstObject_unmapped⟩

/-- A byte behind the start of its page is stored at the start. -/
theorem unaligned_write_misplaced : ¬∀ (s : Store) (n : ℕ) (buf : Memory) (z offset : ℕ)
    (old : Set ℕ), StoreOk .objfs False s → s.live n = true → InObjs n → s.lockData = false →
    offset % blockSize + z ≤ blockSize → offset / blockSize < 4100 →
    (∀ x ∈ old, x / blockSize < 4100 ∧ value .objfs s (.ofBlock n (x / blockSize)) ≠ 0) →
    writeCost s n (offset / blockSize) ≤ (freeBits s.bitMapData dataBits).card →
    WritesRange .objfs s n buf z offset old := by
  intro hclaim
  have hlock : firstObject.lockData = false := (objstoreInit_empty blankDevice_blank).lock
  have hold : ∀ x ∈ (∅ : Set ℕ), x / blockSize < 4100 ∧
      value .objfs firstObject (.ofBlock 0 (x / blockSize)) ≠ 0 := fun x hx => hx.elim
  obtain ⟨s', hwrite, hrange⟩ := hclaim firstObject 0 (fun _ => 1) 1 1 ∅ firstObject_ok
    firstObject_live (by decide) hlock (by norm_num) (by norm_num) hold firstObject_cost
  have hin := objstoreWrite_inBounds hwrite
  have hp : Picks firstObject 0 (1 / blockSize) 0 1 :=
    (objstoreInit_empty blankDevice_blank).picks _
  rw [objstoreWrite_found hp.data hin, Option.some.injEq, Prod.mk.injEq] at hwrite
  rw [← hwrite.1, (written_replaced firstObject_ok firstObject_live hin hp
    firstObject_unmapped).rangeOnly_iff (by norm_num) hold, provides_iff (by norm_num)] at hrange
  rcases hrange.1 with hstart | hzero
  · exact absurd hstart (by norm_num)
  · exact absurd (hzero 0 (by norm_num)) (by decide)

end Examples

end OsAssignments.ByteRanges
