import OsAssignments.WriteCases

/-!
# Running out of space

A write should fail as a whole when the free data blocks do not suffice. The search
for the data block leaves `lock_data` held when it finds none, and nobody looks at
the outcome of the search for an indirect block: without one its number is -1.
-/
namespace OsAssignments.OutOfSpace

open ByteMemory Bitmap ObjectTable Builds

variable {build : Build} {s : Store} {n z offset : ℕ} {buf : Memory}

/-- Fewer data blocks are free than a write to logical block `k` takes. -/
def Starved (s : Store) (n k : ℕ) : Prop := (freeBits s.bitMapData dataBits).card < writeCost s n k

/-- From `s` to `s'` the data bitmap, the records and the disk blocks stayed. -/
structure Unchanged (s s' : Store) : Prop where
  bits : s'.bitMapData = s.bitMapData
  records : s'.objs = s.objs
  blocks : s'.dev.disk.image = s.dev.disk.image

/-- The write returns with `lock_data` free, and when it is starved it returns -1 and
changes nothing. -/
def Clean (build : Build) (s : Store) (n : ℕ) (buf : Memory) (z offset : ℕ) : Prop :=
  ∃ s' r, objstoreWrite build s (n + 2) buf z offset = some (s', r) ∧ s'.lockData = false ∧
    (Starved s n (offset / blockSize) → r = -1 ∧ Unchanged s s')

lemma not_starved_of_free (hfree : writeCost s n (offset / blockSize) ≤
    (freeBits s.bitMapData dataBits).card) : ¬Starved s n (offset / blockSize) :=
  not_lt.mpr hfree

/-- Without a free block the lock stays held. -/
lemma not_clean_of_full (hfull : freeBits s.bitMapData dataBits = ∅) :
    ¬Clean build s n buf z offset := by
  rintro ⟨s', r, hwrite, hlock, -⟩
  have hin := objstoreWrite_inBounds hwrite
  rw [objstoreWrite_full hfull hin, Option.some.injEq, Prod.mk.injEq] at hwrite
  rw [← hwrite.1] at hlock
  contradiction

/-- With one block free where two are needed the write succeeds. -/
lemma not_clean_of_starved (hfree : (freeBits s.bitMapData dataBits).Nonempty)
    (hstarved : Starved s n (offset / blockSize)) : ¬Clean build s n buf z offset := by
  rintro ⟨s', r, hwrite, -, hfail⟩
  have hin := objstoreWrite_inBounds hwrite
  obtain ⟨b, hb⟩ := exists_firstFree hfree
  rw [objstoreWrite_found hb hin, Option.some.injEq, Prod.mk.injEq] at hwrite
  have hret := (hfail hstarved).1
  omega

/-- A write fails cleanly, or keeps the lock free, exactly when it does not run out of
space, its record lies inside the mapping and its bytes fit a page. -/
theorem clean_iff (build : Build) (s : Store) (n : ℕ) (buf : Memory) (z offset : ℕ)
    (hlock : s.lockData = false) (hk : offset / blockSize < 4100) :
    Clean build s n buf z offset ↔
      InObjs n ∧ z ≤ 4096 ∧
        writeCost s n (offset / blockSize) ≤ (freeBits s.bitMapData dataBits).card := by
  constructor
  · intro hclean
    obtain ⟨s', r, hwrite, -, -⟩ := id hclean
    have hin := objstoreWrite_inBounds hwrite
    refine ⟨hin.2.1, hin.1, ?_⟩
    by_contra hstarved
    rcases (freeBits s.bitMapData dataBits).eq_empty_or_nonempty with hfull | hfree
    · exact not_clean_of_full hfull hclean
    · exact not_clean_of_starved hfree (not_le.mp hstarved) hclean
  · rintro ⟨hn, hz, hfree⟩
    have hin : WriteInBounds s n (offset / blockSize) z := ⟨hz, hn, hk, hlock⟩
    have hpos : 0 < (freeBits s.bitMapData dataBits).card :=
      (one_le_writeCost s n (offset / blockSize)).trans hfree
    obtain ⟨b, hb⟩ := exists_firstFree (Finset.card_pos.mp hpos)
    refine ⟨_, _, objstoreWrite_found hb hin, ?_, fun hstarved => ?_⟩
    · rw [(written_frame build s n _ z b _).lock, hlock]
    · exact absurd hstarved (not_starved_of_free hfree)

/-- The first write to a new object. -/
theorem clean_iff_first :
    Clean .objfs (created (objstoreInit blankDevice) 0 keyA) 0 (fun _ => 1) blockSize 0 := by
  have hempty := objstoreInit_empty blankDevice_blank
  have hlock : (created (objstoreInit blankDevice) 0 keyA).lockData = false := hempty.lock
  exact (clean_iff .objfs _ 0 _ blockSize 0 hlock (by norm_num)).mpr
    ⟨by decide, le_rfl, hempty.createdCost 0 _⟩

/-- A new object in a store without a free data block. -/
def fullStore : Store :=
  { created (objstoreInit blankDevice) 0 keyA with bitMapData := fun _ => BitVec.allOnes 32 }

/-- Without a free block the write returns with the lock held. -/
theorem full_store_locked : ¬∀ (s : Store) (n : ℕ) (buf : Memory) (z offset : ℕ),
    s.lockData = false → s.live n = true → InObjs n → z ≤ 4096 → offset / blockSize < 4100 →
    Clean .objfs s n buf z offset := by
  intro hclaim
  have hempty := objstoreInit_empty blankDevice_blank
  have hfull : freeBits fullStore.bitMapData dataBits = ∅ := by
    ext m
    have hset : bit fullStore.bitMapData m = true :=
      BitVec.getLsbD_allOnes.trans (decide_eq_true (mod_lt_word m))
    simp [hset]
  have hlive : fullStore.live 0 = true := by
    have hcreated : (created (objstoreInit blankDevice) 0 keyA).live 0 = true := by
      simp [live_created]
    exact hcreated
  exact not_clean_of_full hfull
    (hclaim fullStore 0 (fun _ => 1) blockSize 0 hempty.lock hlive (by decide) le_rfl (by norm_num))

end OsAssignments.OutOfSpace
