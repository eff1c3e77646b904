import OsAssignments.WriteCases

/-!
# The largest object

Four direct pointers and four indirect blocks reach 4100 blocks. `objstore_write`
divides the index of a block into a pointer and an entry and checks neither, after it
has taken and written a data block. Past the limit the pointers behind `indirect[3]`
are followed into the records they lie in.
-/
namespace OsAssignments.SizeLimit

open ByteMemory Bitmap ObjectTable Builds

variable {build : Build} {s s' : Store} {n k b z offset : ℕ} {buf : Memory} {objid r : ℤ}

/-- From `s` to `s'` the bitmaps, the records and the disk blocks stayed. -/
structure Unchanged (s s' : Store) : Prop where
  inodes : s'.bitMapInode = s.bitMapInode
  bits : s'.bitMapData = s.bitMapData
  records : s'.objs = s.objs
  blocks : s'.dev.disk.image = s.dev.disk.image

/-- Past the limit a write returns -1 and changes nothing; below it a write changes the
size of its own record and one of the eight pointers there. -/
def Enforced (build : Build) (s : Store) (n : ℕ) (buf : Memory) (z offset : ℕ) : Prop :=
  if offset / blockSize < 4100 then
    ∀ s' r, objstoreWriteAt build s (n + 2) buf z offset = some (s', r) →
      ∃ j < 8, SizeOrPointer n j s.objs s'.objs
  else ∃ s', objstoreWriteAt build s (n + 2) buf z offset = some (s', -1) ∧ Unchanged s s'

lemma enforced_below (hk : offset / blockSize < 4100) : Enforced build s n buf z offset := by
  rw [Enforced, if_pos hk]
  intro s' r hwrite
  refine ⟨pointerOf (offset / blockSize), pointerOf_lt hk, ?_⟩
  by_cases hin : StartInBounds s n z
  · rcases (freeBits s.bitMapData dataBits).eq_empty_or_nonempty with hfull | hfree
    · rw [objstoreWriteAt_full hfull hin, Option.some.injEq, Prod.mk.injEq] at hwrite
      rw [← hwrite.1]
      exact .refl _ _ _
    · obtain ⟨b, hb⟩ := exists_firstFree hfree
      rw [objstoreWriteAt_found hb hin, if_pos (pointerInObjs hin.2.1 hk), Option.some.injEq,
        Prod.mk.injEq] at hwrite
      rw [← hwrite.1]
      exact (written_frame build s n _ z b _).record
  · rw [objstoreWriteAt_out hin] at hwrite
    contradiction

/-- Past the limit a write that finds a block does not return -1. -/
lemma not_enforced_past (hk : ¬offset / blockSize < 4100)
    (hb : FirstFree s.bitMapData dataBits b) : ¬Enforced build s n buf z offset := by
  rw [Enforced, if_neg hk]
  rintro ⟨s', hwrite, -⟩
  by_cases hin : StartInBounds s n z
  · rw [objstoreWriteAt_found hb hin] at hwrite
    split_ifs at hwrite <;> rw [Option.some.injEq, Prod.mk.injEq] at hwrite <;> omega
  · rw [objstoreWriteAt_out hin] at hwrite
    contradiction

/-- The limit is kept exactly where the index is below it or no data block is left. -/
theorem enforced_iff (build : Build) (s : Store) (n : ℕ) (buf : Memory) (z offset : ℕ) :
    Enforced build s n buf z offset ↔
      offset / blockSize < 4100 ∨
        (freeBits s.bitMapData dataBits = ∅ ∧ z ≤ 4096 ∧ InObjs n ∧ s.lockData = false) := by
  by_cases hk : offset / blockSize < 4100
  · exact ⟨fun _ => Or.inl hk, fun _ => enforced_below hk⟩
  · rcases (freeBits s.bitMapData dataBits).eq_empty_or_nonempty with hfull | hfree
    · rw [Enforced, if_neg hk]
      constructor
      · rintro ⟨s', hwrite, -⟩
        by_cases hin : StartInBounds s n z
        · exact Or.inr ⟨hfull, hin⟩
        · rw [objstoreWriteAt_out hin] at hwrite
          contradiction
      · intro hcond
        have hin : StartInBounds s n z := (hcond.resolve_left hk).2
        exact ⟨_, objstoreWriteAt_full hfull hin, rfl, rfl, rfl, rfl⟩
    · obtain ⟨b, hb⟩ := exists_firstFree hfree
      refine ⟨fun h => absurd h (not_enforced_past hk hb), fun hcond => ?_⟩
      have hempty := (hcond.resolve_left hk).1
      rw [hempty] at hfree
      exact absurd hfree Finset.not_nonempty_empty

/-- A write to block 4100 of a first object succeeds. -/
theorem limit_passed : ¬∀ (s : Store) (n : ℕ) (buf : Memory) (z offset : ℕ), s.live n = true →
    InObjs n → z ≤ 4096 → s.lockData = false → offset / blockSize < 2 ^ 31 →
    Enforced .objfs s n buf z offset := by
  intro hclaim
  have hempty := objstoreInit_empty blankDevice_blank
  have hlive : (created (objstoreInit blankDevice) 0 keyA).live 0 = true := by simp [live_created]
  exact not_enforced_past (by norm_num) (hempty.picks 0).data
    (hclaim _ 0 (fun _ => 1) blockSize (blockSize * 4100) hlive (by decide) le_rfl hempty.lock
      (by norm_num))

end OsAssignments.SizeLimit
