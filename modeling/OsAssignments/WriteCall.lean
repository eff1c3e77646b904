import OsAssignments.PagingInvariant

/-!
# The write system call

`SYSCALL_WRITE` looks at the first and the last byte of its buffer with the software
walk and then reads every byte. A buffer has at most 1024 bytes and so at most two
pages, the ones looked at; but the walk takes 48 bits of an address and does not
look at the others.
-/
namespace OsAssignments.WriteCall

open Paging PagingInvariant

variable {α : Type} {k : Kernel α} {param1 param2 x : Word} {i : ℕ}

/-- `SYSCALL_WRITE`: its return value and the addresses that the print loop reads, in order. -/
def sysWrite (k : Kernel α) (param1 param2 : Word) : ℤ × List Word :=
  if 1024 < param2 then (-1, [])
  else
    let frame := k.ctx.pgd
    let z1 := isvalid k.mem param1 frame
    let z2 := isvalid k.mem (param1 + param2 - 1) frame
    if z1 = -1 ∨ z2 = -1 then (-1, [])
    else (param2.toNat, (List.range param2.toNat).map fun i => param1 + BitVec.ofNat 64 i)

/-- An address the kernel may read: canonical, and present at all four levels. -/
def Mapped (k : Kernel α) (x : Word) : Prop :=
  Canonical x ∧ ∃ page, Paging.translate 1 k.mem k.ctx.pgd x = some page

/-- What the call owes the kernel: it reads mapped addresses only, and turns down a buffer that
has another one. -/
structure Safe (k : Kernel α) (param1 param2 : Word) : Prop where
  reads : ∀ x ∈ (sysWrite k param1 param2).2, Mapped k x
  rejects : 1 ≤ param2.toNat → param2.toNat ≤ 1024 →
    (∃ i < param2.toNat, ¬Mapped k (param1 + BitVec.ofNat 64 i)) →
    sysWrite k param1 param2 = (-1, [])

/-- The kinds of calls that cannot go wrong. -/
def Harmless (k : Kernel α) (param1 param2 : Word) : Prop :=
  param2 = 0 ∨ 1024 < param2 ∨ isvalid k.mem param1 k.ctx.pgd = -1 ∨
    isvalid k.mem (param1 + param2 - 1) k.ctx.pgd = -1 ∨
    Canonical param1 ∧ Canonical (param1 + param2 - 1)

lemma isvalid_cases (mem : Paging.Memory) (address : Word) (frame : Frame) :
    isvalid mem address frame = 1 ∨ isvalid mem address frame = -1 := by
  simp only [isvalid]
  split_ifs <;> simp

lemma valid_of_ne (h : isvalid k.mem x k.ctx.pgd ≠ -1) : Valid k x :=
  (isvalid_cases _ _ _).resolve_right h

lemma translate_of_valid (h : Valid k x) :
    ∃ page, Paging.translate 1 k.mem k.ctx.pgd x = some page :=
  isvalid_iff.mp h

/-- Every byte of a short buffer lies in the page of its first or of its last byte. -/
lemma samePage_or (param1 : Word) (hn : param2.toNat ≤ 1024) (hi : i < param2.toNat) :
    SamePage (param1 + BitVec.ofNat 64 i) param1 ∨
      SamePage (param1 + BitVec.ofNat 64 i) (param1 + param2 - 1) := by
  have hx : (param1 + BitVec.ofNat 64 i).toNat = (param1.toNat + i) % 2 ^ 64 := by
    rw [BitVec.toNat_add, BitVec.toNat_ofNat]
    omega
  have hl : (param1 + param2 - 1).toNat = (param1.toNat + (param2.toNat - 1)) % 2 ^ 64 := by
    bv_omega
  unfold SamePage
  omega

lemma canonical_between (hn : param2.toNat ≤ 1024) (hi : i < param2.toNat)
    (hfirst : Canonical param1) (hlast : Canonical (param1 + param2 - 1)) :
    Canonical (param1 + BitVec.ofNat 64 i) := by
  have hx : (param1 + BitVec.ofNat 64 i).toNat = (param1.toNat + i) % 2 ^ 64 := by
    rw [BitVec.toNat_add, BitVec.toNat_ofNat]
    omega
  have hl : (param1 + param2 - 1).toNat = (param1.toNat + (param2.toNat - 1)) % 2 ^ 64 := by
    bv_omega
  unfold Canonical at hfirst hlast ⊢
  omega

/-- The bytes of a short buffer are mapped when its first and last byte pass the walk and are
canonical. -/
lemma mapped_between (hn : param2.toNat ≤ 1024) (hi : i < param2.toNat)
    (hz1 : Valid k param1) (hz2 : Valid k (param1 + param2 - 1)) (hfirst : Canonical param1)
    (hlast : Canonical (param1 + param2 - 1)) : Mapped k (param1 + BitVec.ofNat 64 i) := by
  refine ⟨canonical_between hn hi hfirst hlast, ?_⟩
  unfold Paging.translate
  cases samePage_or param1 hn hi with
  | inl h =>
    rw [path_of_samePage h]
    exact translate_of_valid hz1
  | inr h =>
    rw [path_of_samePage h]
    exact translate_of_valid hz2

/-- A call that gets past its checks reads every byte. -/
lemma sysWrite_reads (hn : ¬1024 < param2) (hz1 : isvalid k.mem param1 k.ctx.pgd ≠ -1)
    (hz2 : isvalid k.mem (param1 + param2 - 1) k.ctx.pgd ≠ -1) :
    sysWrite k param1 param2 = ((param2.toNat : ℤ),
      (List.range param2.toNat).map fun i => param1 + BitVec.ofNat 64 i) := by
  simp only [sysWrite, if_neg hn, hz1, hz2, or_self, if_false]

lemma safe_of_rejected (h : sysWrite k param1 param2 = (-1, [])) : Safe k param1 param2 := by
  refine ⟨fun x hx => ?_, fun _ _ _ => h⟩
  rw [h] at hx
  cases hx

lemma safe_of_harmless (h : Harmless k param1 param2) : Safe k param1 param2 := by
  by_cases hn : 1024 < param2
  · exact safe_of_rejected (if_pos hn)
  by_cases hz : isvalid k.mem param1 k.ctx.pgd = -1 ∨
      isvalid k.mem (param1 + param2 - 1) k.ctx.pgd = -1
  · exact safe_of_rejected (by simp only [sysWrite, if_neg hn, if_pos hz])
  rw [not_or] at hz
  have hret := sysWrite_reads hn hz.1 hz.2
  have hshort : param2.toNat ≤ 1024 := by
    rw [BitVec.not_lt, BitVec.le_def] at hn
    exact hn
  have hall : ∀ i < param2.toNat, Mapped k (param1 + BitVec.ofNat 64 i) := by
    intro i hi
    obtain hempty | hlong | hbad | hbad | ⟨hfirst, hlast⟩ := h
    · subst hempty
      exact absurd hi (Nat.not_lt_zero i)
    · exact absurd hlong hn
    · exact absurd hbad hz.1
    · exact absurd hbad hz.2
    · exact mapped_between hshort hi (valid_of_ne hz.1) (valid_of_ne hz.2) hfirst hlast
  refine ⟨fun x hx => ?_, fun _ _ ⟨i, hi, hbad⟩ => absurd (hall i hi) hbad⟩
  rw [hret, List.mem_map] at hx
  obtain ⟨i, hi, rfl⟩ := hx
  exact hall i (List.mem_range.mp hi)

lemma harmless_of_safe (h : Safe k param1 param2) : Harmless k param1 param2 := by
  by_contra hnot
  simp only [Harmless, not_or] at hnot
  obtain ⟨hzero, hn, hz1, hz2, hcanonical⟩ := hnot
  have hpos : 0 < param2.toNat := by bv_omega
  -- the first and the last byte are read
  have hread : ∀ i < param2.toNat, Mapped k (param1 + BitVec.ofNat 64 i) := by
    intro i hi
    apply h.reads
    rw [sysWrite_reads hn hz1 hz2]
    exact List.mem_map.mpr ⟨i, List.mem_range.mpr hi, rfl⟩
  have hfirst := (hread 0 hpos).1
  have hlast := (hread (param2.toNat - 1) (by omega)).1
  have hend : param1 + BitVec.ofNat 64 (param2.toNat - 1) = param1 + param2 - 1 := by bv_omega
  have hstart : param1 + BitVec.ofNat 64 0 = param1 := by bv_omega
  rw [hstart] at hfirst
  rw [hend] at hlast
  exact hcanonical ⟨hfirst, hlast⟩

/-- The call is safe for the harmless buffers and for no other. -/
theorem write_safe_iff (k : Kernel α) (param1 param2 : Word) :
    Safe k param1 param2 ↔ Harmless k param1 param2 :=
  ⟨harmless_of_safe, safe_of_harmless⟩

/-- The page of RODATA, asked for with bit 48 of its address set. -/
theorem write_reads_unmapped :
    ¬∀ (k : Kernel (ℕ × List Frame)) (param1 param2 : Word), Safe k param1 param2 := by
  intro hclaim
  have hread : (sysWrite topGuarded 0x1000140000000 1).2 = [0x1000140000000] := by decide
  obtain ⟨hcanonical, -⟩ := (hclaim topGuarded 0x1000140000000 1).reads 0x1000140000000
    (hread ▸ List.mem_singleton.mpr rfl)
  unfold Canonical at hcanonical
  exact absurd hcanonical (by decide)

end OsAssignments.WriteCall
