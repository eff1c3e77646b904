import OsAssignments.Touching

/-!
# The branches of a write

What `objstore_write` can do in any store, whatever its references name: refuse a
reserved number, find no free block, or take the first free block and hang it at
the pointer or the table entry of the logical block.
-/
namespace OsAssignments

open ByteMemory Bitmap ObjectTable Builds

variable {build : Build} {s s' : Store} {n k z b offset : ℕ} {p : Block} {buf : Memory}
  {objid r : ℤ}

/-- The store once the new data block `b` hangs at logical block `k`. -/
def written (build : Build) (s : Store) (n k z b : ℕ) (page : Block) : Store :=
  if k < 4 then writeDirect (placed build s n b page) n k z b
  else writeIndirect build (placed build s n b page) n k z b

theorem objstoreWrite_found (hb : FirstFree s.bitMapData dataBits b)
    (hin : WriteInBounds s n (offset / blockSize) z) :
    objstoreWrite build s (n + 2) buf z offset =
      some (written build s n (offset / blockSize) z b (bufferPage buf z), (z : ℤ)) :=
  objstoreWrite_eq hb hin

/-- All that `objstore_write` can do. -/
theorem write_cases (h : objstoreWrite build s objid buf z offset = some (s', r)) :
    (objid < 2 ∧ s' = s ∧ r = -1) ∨
      ∃ n : ℕ, objid = n + 2 ∧ WriteInBounds s n (offset / blockSize) z ∧
        ((freeBits s.bitMapData dataBits = ∅ ∧ s' = { s.markDirty n with lockData := true } ∧
            r = -1) ∨
          ∃ b, FirstFree s.bitMapData dataBits b ∧ r = z ∧
            s' = written build s n (offset / blockSize) z b (bufferPage buf z)) := by
  by_cases hid : objid < 2
  · rw [objstoreWrite_reserved hid, Option.some.injEq, Prod.mk.injEq] at h
    exact Or.inl ⟨hid, h.1.symm, h.2.symm⟩
  · obtain ⟨n, rfl⟩ : ∃ n : ℕ, objid = n + 2 := ⟨(objid - 2).toNat, by omega⟩
    have hin := objstoreWrite_inBounds h
    refine Or.inr ⟨n, rfl, hin, ?_⟩
    rcases (freeBits s.bitMapData dataBits).eq_empty_or_nonempty with hfull | hfree
    · rw [objstoreWrite_full hfull hin, Option.some.injEq, Prod.mk.injEq] at h
      exact Or.inl ⟨hfull, h.1.symm, h.2.symm⟩
    · obtain ⟨b, hb⟩ := exists_firstFree hfree
      rw [objstoreWrite_found hb hin, Option.some.injEq, Prod.mk.injEq] at h
      exact Or.inr ⟨b, hb, h.2.symm, h.1.symm⟩

section Effects

/-- No block is mapped at logical block `k` when the write looks, which is after its
data went to block `b`. -/
def Unmapped (build : Build) (s : Store) (n k b : ℕ) (page : Block) : Prop :=
  if k < 4 then direct s.objs n k = 0
  else indirect s.objs n ((k - 4) / 1024) = 0 ∨
    entry (loadBlock build (placed build s n b page).dev
      (indirect s.objs n ((k - 4) / 1024) - writeOffset)).2 ((k - 4) % 1024) = 0

/-- Table `m'` is table `m` but for the size of record `n` and its pointer `j`. -/
def SizeOrPointer (n j : ℕ) (m m' : Memory) : Prop :=
  ∀ a, a < 96 * n + 8 ∨ 96 * n + 16 ≤ a → a < 96 * n + 64 + 4 * j ∨ 96 * n + 64 + 4 * j + 4 ≤ a →
    m' a = m a

lemma SizeOrPointer.refl (n j : ℕ) (m : Memory) : SizeOrPointer n j m m := fun _ _ _ => rfl

lemma SizeOrPointer.trans {j : ℕ} {m m' m'' : Memory} (h : SizeOrPointer n j m m')
    (h' : SizeOrPointer n j m' m'') : SizeOrPointer n j m m'' :=
  fun a ha hb => (h' a ha hb).trans (h a ha hb)

lemma sizeOrPointer_setSize (j : ℕ) (m : Memory) (v : ℤ) :
    SizeOrPointer n j m (setSize m n v) := fun _ ha _ => storeBytes_of_not_mem ha

lemma sizeOrPointer_setPointer (j : ℕ) (m : Memory) (v : ℤ) :
    SizeOrPointer n j m (setPointer m n j v) := fun _ _ hb => storeBytes_of_not_mem hb

/-- What a write leaves alone besides: all but the device, the data bitmap and the mark
of its record. -/
structure WriteFrame (s s' : Store) (n k : ℕ) : Prop where
  record : SizeOrPointer n (pointerOf k) s.objs s'.objs
  inodes : s'.bitMapInode = s.bitMapInode
  dirty : s'.dBitMap = (s.markDirty n).dBitMap
  temp : s'.temp = s.temp
  lock : s'.lockData = s.lockData

/-- A write changes its own record only, and of it the size and one pointer. -/
theorem written_frame (build : Build) (s : Store) (n k z b : ℕ) (p : Block) :
    WriteFrame s (written build s n k z b p) n k := by
  suffices hrecord : SizeOrPointer n (pointerOf k) s.objs (written build s n k z b p).objs by
    refine ⟨hrecord, ?_, ?_, ?_, ?_⟩ <;>
      simp only [written, writeDirect, writeIndirect, writeNewIndirect, writeOldIndirect] <;>
      split_ifs <;> rfl
  rw [written, pointerOf]
  split_ifs with hk
  · unfold writeDirect
    split_ifs
    · exact (sizeOrPointer_setPointer k _ _).trans (sizeOrPointer_setSize k _ _)
    · exact sizeOrPointer_setPointer k _ _
  · simp only [writeIndirect]
    split_ifs
    · exact (sizeOrPointer_setPointer _ _ _).trans (sizeOrPointer_setSize _ _ _)
    · rw [writeOldIndirect]
      split_ifs
      · exact sizeOrPointer_setSize _ _ _
      · exact .refl _ _ _

section Size

lemma objSize_setSize_self {m : Memory} {v : ℤ} (hv : -2 ^ 63 ≤ v ∧ v < 2 ^ 63) :
    objSize (setSize m n v) n = v := (objSize_setSize hv).trans (if_pos rfl)

lemma objSize_setPointer_self (m : Memory) (j : ℕ) (v : ℤ) :
    objSize (setPointer m n j v) n = objSize m n := loadInt_storeLE_ne (by omega)

/-- A write to an unmapped block adds its length to the size. -/
theorem written_size (hu : Unmapped build s n k b p) (hlo : 0 ≤ objSize s.objs n)
    (hhi : objSize s.objs n + z < 2 ^ 63) :
    objSize (written build s n k z b p).objs n = objSize s.objs n + z := by
  have hobjs : (placed build s n b p).objs = s.objs := rfl
  have hrange : -2 ^ 63 ≤ objSize s.objs n + z ∧ objSize s.objs n + z < 2 ^ 63 := by omega
  by_cases hk : k < 4
  · rw [Unmapped, if_pos hk] at hu
    rw [written, if_pos hk, writeDirect, hobjs, if_pos hu]
    simp only [objSize_setPointer_self, objSize_setSize_self hrange]
  · rw [Unmapped, if_neg hk] at hu
    rw [written, if_neg hk]
    simp only [writeIndirect, hobjs]
    split_ifs with hz
    · simp only [writeNewIndirect, hobjs, objSize_setPointer_self, objSize_setSize_self hrange]
    · simp only [writeOldIndirect, hobjs, if_pos (hu.resolve_left hz), objSize_setSize_self hrange]

/-- Any other write leaves the size as it is. -/
theorem written_size_mapped (hu : ¬Unmapped build s n k b p) :
    objSize (written build s n k z b p).objs n = objSize s.objs n := by
  have hobjs : (placed build s n b p).objs = s.objs := rfl
  by_cases hk : k < 4
  · rw [Unmapped, if_pos hk] at hu
    rw [written, if_pos hk, writeDirect, hobjs, if_neg hu]
    simp only [objSize_setPointer_self]
  · rw [Unmapped, if_neg hk, not_or] at hu
    rw [written, if_neg hk]
    simp only [writeIndirect, hobjs, if_neg hu.1, writeOldIndirect, if_neg hu.2]

end Size

end Effects

end OsAssignments
