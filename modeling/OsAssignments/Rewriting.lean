import OsAssignments.LastWrite
import OsAssignments.WriteCases

/-!
# The block a rewrite gives up

A write to a mapped block takes a new data block and should release the old one. The
bit it toggles is numbered like the old block on the disk, `WRITE_OFFSET` bits behind
the bit of the data block.
-/
namespace OsAssignments.Rewriting

open ByteMemory Bitmap ObjectTable Builds
open LastWrite (firstWritten firstWritten_free firstWritten_live firstWritten_ok firstWritten_spec
  twos wholeWrite_block)

variable {build : Build} {strict : Prop} {s s' : Store} {n k z b d offset : ℕ} {p : Block}
  {buf : Memory}

/-- From `s` to `s'` the first free block was marked and block `d` released, and no
other bit of the data bitmap changed. -/
def Released (s s' : Store) (d : ℕ) : Prop :=
  ∃ b, FirstFree s.bitMapData dataBits b ∧ ∀ m < dataBits,
    bit s'.bitMapData m = if m = b then true else if m = d then false else bit s.bitMapData m

section Bits

variable (hdev : (device build).Ok s.dev) (hacc : Accounts strict (value build s) s.bitMapData)
  (hb : FirstFree s.bitMapData dataBits b) (hk : k < 4100)
  (hv : value build s (.ofBlock n k) = writeOffset + d)
include hdev hacc hb hk hv

/-- A rewrite toggles the bit of the pointer it found. -/
lemma written_bits : (written build s n k z b p).bitMapData =
    toggleBit (setBit s.bitMapData b) (writeOffset + d) := by
  have hne : value build s (.ofBlock n k) ≠ 0 := hv ▸ position_ne_zero d
  unfold written
  split_ifs with hk4
  · rw [value_ofBlock_lt hk4] at hv hne
    have hptr : direct (placed build s n b p).objs n k = writeOffset + d := hv
    rw [writeDirect, if_neg (hptr ▸ position_ne_zero d)]
    exact congrArg (toggleBit (setBit s.bitMapData b)) hptr
  · have hz := table_ne_zero hk4 hk hne
    have htable : indirect (placed build s n b p).objs n ((k - 4) / 1024) =
        indirect s.objs n ((k - 4) / 1024) := rfl
    obtain ⟨c, hc, hvc⟩ := hacc.range (.pointer n ⟨4 + (k - 4) / 1024, by omega⟩) hz
    have hcv : indirect s.objs n ((k - 4) / 1024) - writeOffset = c := by
      have : indirect s.objs n ((k - 4) / 1024) = writeOffset + c := hvc
      omega
    have hcb : (c : ℤ) ≠ b := fun he =>
      hacc.ne_of_clear hb.clear (.pointer n ⟨4 + (k - 4) / 1024, by omega⟩) (he ▸ hvc)
    have hload := load_placed_of (m := n) (p := p) hdev hb.1 (validBlock_ofNat hc) hcb
    rw [Ref.ofBlock_entry hk4 hk, value, if_neg hz] at hv
    simp only [hcv] at hv
    simp only [writeIndirect, htable, if_neg hz, writeOldIndirect, hcv, hload, hv,
      if_neg (position_ne_zero d)]
    rfl

/-- What a rewrite does to every bit: the old block stays marked. -/
theorem bit_written (m : ℕ) : bit (written build s n k z b p).bitMapData m =
    ((bit s.bitMapData m || decide (b = m)) ^^ decide (22815 + d = m)) := by
  have hpos : writeOffset + (d : ℤ) = ((22815 + d : ℕ) : ℤ) := by
    rw [writeOffset_eq]
    push_cast
    rfl
  rw [written_bits hdev hacc hb hk hv, hpos, bit_toggleBit, bit_setBit]

lemma not_released : ¬Released s (written build s n k z b p) d := by
  rintro ⟨b', hb', hbits⟩
  have hused := hacc.used hv
  have hkept := bit_written (p := p) (z := z) hdev hacc hb hk hv d
  rw [hbits d (hacc.lt hv), hused] at hkept
  have hdb : d ≠ b' := by
    rintro rfl
    rw [hb'.clear] at hused
    contradiction
  simp [hdb] at hkept

end Bits

/-- No rewrite releases the block it replaces. -/
theorem rewrite_never_releases (build : Build) (s s' : Store) (n d : ℕ) (buf : Memory)
    (z offset : ℕ) (hdev : (device build).Ok s.dev)
    (hacc : Accounts True (value build s) s.bitMapData)
    (hv : value build s (.ofBlock n (offset / blockSize)) = writeOffset + d)
    (hwrite : objstoreWrite build s (n + 2) buf z offset = some (s', (z : ℤ))) :
    ¬Released s s' d := by
  have hin := objstoreWrite_inBounds hwrite
  rcases write_cases hwrite with ⟨hid, -, -⟩ | ⟨m, hm, -, ⟨-, -, hr⟩ | ⟨b, hb, -, rfl⟩⟩
  · omega
  · omega
  · obtain rfl : n = m := by omega
    exact not_released hdev hacc hb hin.2.2.1 hv

section Examples

lemma firstWritten_value (hk : k < 4100) :
    value .objfs (firstWritten k) (.ofBlock 0 (blockSize * k / blockSize)) =
      writeOffset + (0 : ℕ) := by
  rw [wholeWrite_block]
  exact ((firstWritten_spec hk).2.data _ (Ref.isData_ofBlock 0 k)).trans (if_pos rfl)

/-- A second write to the block written first. -/
lemma firstWritten_again (hk : k < 4100) :
    ∃ b, FirstFree (firstWritten k).bitMapData dataBits b ∧
      objstoreWrite .objfs (firstWritten k) ((0 : ℕ) + 2) twos blockSize (blockSize * k) =
        some (written .objfs (firstWritten k) 0 k blockSize b (bufferPage twos blockSize),
          (blockSize : ℤ)) := by
  have hempty := objstoreInit_empty blankDevice_blank
  have hdiv := wholeWrite_block k
  have hfree : 0 < (freeBits (firstWritten k).bitMapData dataBits).card := firstWritten_free
  obtain ⟨b, hb⟩ := exists_firstFree (Finset.card_pos.mp hfree)
  have hin : WriteInBounds (firstWritten k) 0 (blockSize * k / blockSize) blockSize :=
    ⟨le_rfl, by decide, by rwa [hdiv], (firstWritten_spec hk).2.lock.trans hempty.lock⟩
  refine ⟨b, hb, ?_⟩
  rw [objstoreWrite_found hb hin, hdiv]

/-- An entry of an indirect block is rewritten. -/
theorem rewrite_never_releases_entry : ∃ s', objstoreWrite .objfs (firstWritten 4) ((0 : ℕ) + 2)
    twos blockSize (blockSize * 4) = some (s', (blockSize : ℤ)) ∧
      ¬Released (firstWritten 4) s' 0 := by
  obtain ⟨b, -, hwrite⟩ := firstWritten_again (show 4 < 4100 by norm_num)
  have hok : StoreOk .objfs True (firstWritten 4) := firstWritten_ok (by norm_num)
  exact ⟨_, hwrite, rewrite_never_releases .objfs (firstWritten 4) _ 0 0 twos blockSize
    (blockSize * 4) hok.device hok.accounts (firstWritten_value (by norm_num)) hwrite⟩

/-- A direct block is rewritten: its old block stays marked. -/
theorem replaced_block_leaks : ¬∀ (s s' : Store) (n d : ℕ) (buf : Memory) (z offset : ℕ),
    StoreOk .objfs True s → s.live n = true → offset / blockSize < 4100 →
    value .objfs s (.ofBlock n (offset / blockSize)) = writeOffset + d →
    objstoreWrite .objfs s (n + 2) buf z offset = some (s', (z : ℤ)) → Released s s' d := by
  intro hclaim
  have hok : StoreOk .objfs True (firstWritten 0) := firstWritten_ok (by norm_num)
  obtain ⟨b, hb, hwrite⟩ := firstWritten_again (show 0 < 4100 by norm_num)
  have hv := firstWritten_value (show 0 < 4100 by norm_num)
  have hreleased := hclaim (firstWritten 0) _ 0 0 twos blockSize (blockSize * 0) hok
    (firstWritten_live (by norm_num)) (by norm_num) hv hwrite
  rw [wholeWrite_block] at hv
  exact not_released hok.device hok.accounts hb (by norm_num) hv hreleased

end Examples

end OsAssignments.Rewriting
