import Mathlib.Data.Finset.Card
import Mathlib.Data.Finset.Range
import Mathlib.Tactic

/-!
# Bitmaps of 32-bit words

Bit `n` of a bitmap is bit `n % 32` of word `n / 32`. The scan below is the
doubly nested loop of a first-fit allocator: a mask is doubled across a word
and a record pointer advances in step with it. Word addresses are integers, so
a stray index names a cell outside the array instead of another word of it.
-/
namespace OsAssignments.Bitmap

abbrev Words := ℤ → BitVec 32

def bit (w : Words) (n : ℕ) : Bool := (w ((n / 32 : ℕ) : ℤ)).getLsbD (n % 32)

/-- The mask test of a loop body reads one bit. -/
theorem and_twoPow_eq_zero (x : BitVec 32) {j : ℕ} (hj : j < 32) :
    (x &&& BitVec.twoPow 32 j == 0#32) = !x.getLsbD j := by
  have hne : BitVec.twoPow 32 j ≠ 0#32 := by
    intro h
    have := congrArg (fun y => y.getLsbD j) h
    simp [hj] at this
  rw [BitVec.and_twoPow]
  cases x.getLsbD j <;> simp [hne]

lemma twoPow_mul_two (j : ℕ) : BitVec.twoPow 32 j * 2#32 = BitVec.twoPow 32 (j + 1) := by
  rw [show (2#32 : BitVec 32) = BitVec.twoPow 32 1 from rfl, BitVec.mul_twoPow_eq_shiftLeft,
    BitVec.twoPow_eq, BitVec.twoPow_eq, ← BitVec.shiftLeft_add]

/-- Where a scan stopped: word `i`, bit `j`, its mask, and the record pointer. -/
structure Found where
  i : ℕ
  j : ℕ
  val : BitVec 32
  cnt : ℕ
  deriving DecidableEq

/-- The inner loop over the bits of one word. The mask and the record pointer
advance together; without a hit the pointer is returned. -/
def scanWord (test : BitVec 32 → ℕ → Bool) (i : ℕ) : ℕ → ℕ → BitVec 32 → ℕ → Found ⊕ ℕ
  | 0, _, _, cnt => .inr cnt
  | k + 1, j, val, cnt =>
      if test val cnt then .inl ⟨i, j, val, cnt⟩
      else scanWord test i k (j + 1) (val * 2#32) (cnt + 1)

/-- The outer loop over `rows` words, stopped by the first hit. -/
def scan (w : Words) (test : BitVec 32 → BitVec 32 → ℕ → Bool) : ℕ → ℕ → ℕ → Option Found
  | 0, _, _ => none
  | rows + 1, i, cnt =>
      match scanWord (test (w i)) i 32 0 1#32 cnt with
      | .inl f => some f
      | .inr cnt' => scan w test rows (i + 1) cnt'

lemma scanWord_spec (test : BitVec 32 → ℕ → Bool) (i k j cnt : ℕ) :
    (∃ d < k, scanWord test i k j (BitVec.twoPow 32 j) cnt =
        .inl ⟨i, j + d, BitVec.twoPow 32 (j + d), cnt + d⟩ ∧
      test (BitVec.twoPow 32 (j + d)) (cnt + d) = true ∧
      ∀ e < d, test (BitVec.twoPow 32 (j + e)) (cnt + e) = false) ∨
    (scanWord test i k j (BitVec.twoPow 32 j) cnt = .inr (cnt + k) ∧
      ∀ e < k, test (BitVec.twoPow 32 (j + e)) (cnt + e) = false) := by
  induction k generalizing j cnt with
  | zero => exact Or.inr ⟨rfl, by simp⟩
  | succ k ih =>
    cases ht : test (BitVec.twoPow 32 j) cnt with
    | true => exact Or.inl ⟨0, by omega, by simp [scanWord, ht], by simpa using ht, by simp⟩
    | false =>
      have hstep : scanWord test i (k + 1) j (BitVec.twoPow 32 j) cnt =
          scanWord test i k (j + 1) (BitVec.twoPow 32 (j + 1)) (cnt + 1) := by
        simp [scanWord, ht, twoPow_mul_two]
      have hshift : ∀ d, (∀ e < d, test (BitVec.twoPow 32 (j + 1 + e)) (cnt + 1 + e) = false) →
          ∀ e < d + 1, test (BitVec.twoPow 32 (j + e)) (cnt + e) = false := by
        intro d h e he
        cases e with
        | zero => simpa using ht
        | succ e =>
          have := h e (by omega)
          rwa [show j + 1 + e = j + (e + 1) by omega,
            show cnt + 1 + e = cnt + (e + 1) by omega] at this
      rcases ih (j + 1) (cnt + 1) with ⟨d, hd, hs, hit, hmiss⟩ | ⟨hs, hmiss⟩
      · refine Or.inl ⟨d + 1, by omega, ?_, ?_, hshift d hmiss⟩
        · rw [hstep, hs, show j + 1 + d = j + (d + 1) by omega,
            show cnt + 1 + d = cnt + (d + 1) by omega]
        · rwa [show j + (d + 1) = j + 1 + d by omega, show cnt + (d + 1) = cnt + 1 + d by omega]
      · exact Or.inr ⟨by rw [hstep, hs]; congr 1; omega, hshift k hmiss⟩

/-- The stop of a scan at bit `n`. -/
def foundAt (n : ℕ) : Found := ⟨n / 32, n % 32, BitVec.twoPow 32 (n % 32), n⟩

/-- The test of the scan at bit `n`. -/
def hit (w : Words) (test : BitVec 32 → BitVec 32 → ℕ → Bool) (n : ℕ) : Bool :=
  test (w ((n / 32 : ℕ) : ℤ)) (BitVec.twoPow 32 (n % 32)) n

/-- `m` is the first index below `n` with a property. -/
def FirstBelow (p : ℕ → Bool) (n m : ℕ) : Prop := m < n ∧ p m = true ∧ ∀ k < m, p k = false

theorem FirstBelow.unique {p : ℕ → Bool} {n m m' : ℕ} (h : FirstBelow p n m)
    (h' : FirstBelow p n m') : m = m' := by
  obtain ⟨_, hm, hlt⟩ := h
  obtain ⟨_, hm', hlt'⟩ := h'
  rcases lt_trichotomy m m' with hl | he | hg
  · rw [hlt' m hl] at hm
    contradiction
  · exact he
  · rw [hlt m' hg] at hm'
    contradiction

theorem exists_firstBelow {p : ℕ → Bool} {n m : ℕ} (hm : m < n) (hp : p m = true) :
    ∃ k ≤ m, FirstBelow p n k := by
  have hex : ∃ k, p k = true := ⟨m, hp⟩
  refine ⟨Nat.find hex, Nat.find_min' hex hp, ?_, Nat.find_spec hex, fun k hk => ?_⟩
  · exact lt_of_le_of_lt (Nat.find_min' hex hp) hm
  · simpa using Nat.find_min hex hk

lemma scan_spec (w : Words) (test : BitVec 32 → BitVec 32 → ℕ → Bool) (rows i : ℕ) :
    (∃ m, 32 * i ≤ m ∧ m < 32 * (i + rows) ∧
      scan w test rows i (32 * i) = some (foundAt m) ∧ hit w test m = true ∧
      ∀ k, 32 * i ≤ k → k < m → hit w test k = false) ∨
    (scan w test rows i (32 * i) = none ∧
      ∀ k, 32 * i ≤ k → k < 32 * (i + rows) → hit w test k = false) := by
  induction rows generalizing i with
  | zero => exact Or.inr ⟨rfl, fun k h h' => by omega⟩
  | succ rows ih =>
    have hrow : ∀ e < 32, hit w test (32 * i + e) =
        test (w i) (BitVec.twoPow 32 (0 + e)) (32 * i + e) := by
      intro e he
      rw [hit, show (32 * i + e) / 32 = i by omega, show (32 * i + e) % 32 = 0 + e by omega]
    have hpast : ∀ d ≤ 32, (∀ e < d, test (w i) (BitVec.twoPow 32 (0 + e)) (32 * i + e) = false) →
        ∀ k, 32 * i ≤ k → k < 32 * i + d → hit w test k = false := by
      intro d hd h k hk hk'
      have he := hrow (k - 32 * i) (by omega)
      rw [show 32 * i + (k - 32 * i) = k by omega] at he
      rw [he]
      have := h (k - 32 * i) (by omega)
      rwa [show 32 * i + (k - 32 * i) = k by omega] at this
    have hone : (1#32 : BitVec 32) = BitVec.twoPow 32 0 := rfl
    rcases scanWord_spec (test (w i)) i 32 0 (32 * i) with ⟨d, hd, hs, ht, hmiss⟩ | ⟨hs, hmiss⟩
    · refine Or.inl ⟨32 * i + d, by omega, by omega, ?_, ?_, hpast d (by omega) hmiss⟩
      · simp only [scan, hone, hs, foundAt, show (32 * i + d) / 32 = i by omega,
          show (32 * i + d) % 32 = 0 + d by omega]
      · rw [hrow d hd]
        exact ht
    · have hnext : scan w test (rows + 1) i (32 * i) = scan w test rows (i + 1) (32 * (i + 1)) := by
        simp only [scan, hone, hs]
        rfl
      have hword := hpast 32 le_rfl hmiss
      rcases ih (i + 1) with ⟨m, hl, hu, hm, ht, hrest⟩ | ⟨hm, hrest⟩
      · refine Or.inl ⟨m, by omega, by omega, by rw [hnext, hm], ht, fun k hk hk' => ?_⟩
        by_cases hin : k < 32 * i + 32
        · exact hword k hk hin
        · exact hrest k (by omega) hk'
      · refine Or.inr ⟨by rw [hnext, hm], fun k hk hk' => ?_⟩
        by_cases hin : k < 32 * i + 32
        · exact hword k hk hin
        · exact hrest k (by omega) (by omega)

/-- A scan from the start finds the first index whose test holds, and its
record pointer stands at that index. -/
theorem scan_of_firstBelow {w : Words} {test : BitVec 32 → BitVec 32 → ℕ → Bool} {rows m : ℕ}
    (h : FirstBelow (hit w test) (32 * rows) m) :
    scan w test rows 0 0 = some (foundAt m) := by
  rcases scan_spec w test rows 0 with ⟨k, _, hk, hs, ht, hrest⟩ | ⟨_, hrest⟩
  · have hk' : FirstBelow (hit w test) (32 * rows) k :=
      ⟨by omega, ht, fun e he => hrest e (by omega) he⟩
    rw [h.unique hk']
    exact hs
  · have := hrest m (by omega) (by have := h.1; omega)
    rw [h.2.1] at this
    contradiction

theorem scan_of_none {w : Words} {test : BitVec 32 → BitVec 32 → ℕ → Bool} {rows : ℕ}
    (h : ∀ k < 32 * rows, hit w test k = false) : scan w test rows 0 0 = none := by
  rcases scan_spec w test rows 0 with ⟨k, _, hk, _, ht, _⟩ | ⟨hs, _⟩
  · rw [h k (by omega)] at ht
    contradiction
  · exact hs

/-- Every scan is one of the two. -/
theorem scan_cases (w : Words) (test : BitVec 32 → BitVec 32 → ℕ → Bool) (rows : ℕ) :
    (∃ m, FirstBelow (hit w test) (32 * rows) m ∧
      scan w test rows 0 0 = some (foundAt m)) ∨
    ((∀ k < 32 * rows, hit w test k = false) ∧ scan w test rows 0 0 = none) := by
  by_cases h : ∃ k, k < 32 * rows ∧ hit w test k = true
  · obtain ⟨k, hk, ht⟩ := h
    obtain ⟨m, _, hm⟩ := exists_firstBelow hk ht
    exact Or.inl ⟨m, hm, scan_of_firstBelow hm⟩
  · have hall : ∀ k < 32 * rows, hit w test k = false := by
      intro k hk
      by_contra hne
      exact h ⟨k, hk, by simpa using hne⟩
    exact Or.inr ⟨hall, scan_of_none hall⟩

/-- `w[i] |= val`. -/
def orWord (w : Words) (i : ℤ) (val : BitVec 32) : Words := Function.update w i (w i ||| val)

/-- `w[i] ^= val`. -/
def xorWord (w : Words) (i : ℤ) (val : BitVec 32) : Words := Function.update w i (w i ^^^ val)

/-- Setting bit `n` through its word and mask. -/
def setBit (w : Words) (n : ℕ) : Words :=
  orWord w ((n / 32 : ℕ) : ℤ) (BitVec.twoPow 32 (n % 32))

lemma bit_update (w : Words) (n m : ℕ) (x : BitVec 32) :
    bit (Function.update w ((n / 32 : ℕ) : ℤ) x) m =
      if n / 32 = m / 32 then x.getLsbD (m % 32) else bit w m := by
  rw [bit]
  split_ifs with h
  · rw [h, Function.update_self]
  · rw [Function.update_of_ne (by exact_mod_cast Ne.symm h), bit]

@[simp] theorem bit_setBit (w : Words) (n m : ℕ) :
    bit (setBit w n) m = (bit w m || decide (n = m)) := by
  have hlt : n % 32 < 32 := Nat.mod_lt _ (by norm_num)
  rw [setBit, orWord, bit_update]
  split_ifs with hw
  · have hiff : n % 32 = m % 32 ↔ n = m := by omega
    simp only [BitVec.getLsbD_or, BitVec.getLsbD_twoPow, hlt, decide_true, Bool.true_and, hiff, bit,
      hw]
  · have hne : n ≠ m := fun h => hw (h ▸ rfl)
    simp [hne]

lemma bit_xorWord (w : Words) (n m : ℕ) :
    bit (xorWord w ((n / 32 : ℕ) : ℤ) (BitVec.twoPow 32 (n % 32))) m =
      (bit w m ^^ decide (n = m)) := by
  have hlt : n % 32 < 32 := Nat.mod_lt _ (by norm_num)
  rw [xorWord, bit_update]
  split_ifs with hw
  · have hiff : n % 32 = m % 32 ↔ n = m := by omega
    simp only [BitVec.getLsbD_xor, BitVec.getLsbD_twoPow, hlt, decide_true, Bool.true_and, hiff,
      bit, hw]
  · have hne : n ≠ m := fun h => hw (h ▸ rfl)
    simp [hne]

/-- `w[del / 32] ^= 1 << (del % 32)` with the division of C; the shift count of
a negative remainder is taken modulo 32, as the machine does. -/
def toggleBit (w : Words) (del : ℤ) : Words :=
  xorWord w (del.tdiv 32) (BitVec.twoPow 32 (del.tmod 32 % 32).toNat)

@[simp] theorem bit_toggleBit (w : Words) (n m : ℕ) :
    bit (toggleBit w n) m = (bit w m ^^ decide (n = m)) := by
  have hq : (n : ℤ).tdiv 32 = ((n / 32 : ℕ) : ℤ) := by norm_cast
  have hr : ((n : ℤ).tmod 32 % 32).toNat = n % 32 := by
    have : (n : ℤ).tmod 32 = ((n % 32 : ℕ) : ℤ) := by norm_cast
    rw [this]
    omega
  rw [toggleBit, hq, hr, bit_xorWord]

/-- The clear bits among the first `n`. -/
def freeBits (w : Words) (n : ℕ) : Finset ℕ := (Finset.range n).filter fun k => bit w k = false

@[simp] theorem mem_freeBits {w : Words} {n k : ℕ} :
    k ∈ freeBits w n ↔ k < n ∧ bit w k = false := by simp [freeBits]

theorem freeBits_setBit (w : Words) (n k : ℕ) :
    freeBits (setBit w k) n = (freeBits w n).erase k := by
  ext m
  simp only [mem_freeBits, bit_setBit, Bool.or_eq_false_iff, decide_eq_false_iff_not,
    Finset.mem_erase]
  constructor
  · rintro ⟨hm, hb, hne⟩
    exact ⟨Ne.symm hne, hm, hb⟩
  · rintro ⟨hne, hm, hb⟩
    exact ⟨hm, hb, Ne.symm hne⟩

/-- Taking a free bit leaves one fewer. -/
theorem card_freeBits_setBit {w : Words} {n k : ℕ} (hk : k < n) (hb : bit w k = false) :
    (freeBits (setBit w k) n).card + 1 = (freeBits w n).card := by
  rw [freeBits_setBit]
  exact Finset.card_erase_add_one (by simp [hk, hb])

end OsAssignments.Bitmap
