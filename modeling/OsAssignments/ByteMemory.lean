import Mathlib.Data.List.GetD
import Mathlib.Tactic

/-!
# Byte-addressed memory

A mapping is a function from byte offsets to bytes. Integers are stored little
endian, with two's complement for the negative ones, and C strings end at their
first zero byte. A store changes a range of bytes and nothing else; every frame
lemma below is a disjointness of ranges.
-/
namespace OsAssignments.ByteMemory

abbrev Memory := ℕ → UInt8

/-- Overwrite `len` bytes from offset `a` on. -/
def storeBytes (m : Memory) (a len : ℕ) (src : ℕ → UInt8) : Memory :=
  fun x => if a ≤ x ∧ x < a + len then src (x - a) else m x

theorem storeBytes_of_mem {m : Memory} {a len x : ℕ} {src : ℕ → UInt8}
    (h : a ≤ x ∧ x < a + len) : storeBytes m a len src x = src (x - a) := if_pos h

theorem storeBytes_of_not_mem {m : Memory} {a len x : ℕ} {src : ℕ → UInt8}
    (h : x < a ∨ a + len ≤ x) : storeBytes m a len src x = m x := if_neg (by omega)

@[simp] theorem storeBytes_add {m : Memory} {a len i : ℕ} {src : ℕ → UInt8} (h : i < len) :
    storeBytes m a len src (a + i) = src i := by
  rw [storeBytes_of_mem (by omega), Nat.add_sub_cancel_left]

/-- Byte `i` of the two's complement of `v`. -/
def byteAt (v : ℤ) (i : ℕ) : UInt8 := UInt8.ofNat ((v / 256 ^ i) % 256).toNat

lemma byteAt_succ (v : ℤ) (i : ℕ) : byteAt v (i + 1) = byteAt (v / 256) i := by
  rw [byteAt, byteAt, pow_succ', Int.ediv_ediv_of_nonneg (by norm_num)]

lemma byteAt_toNat (v : ℤ) : (byteAt v 0).toNat = (v % 256).toNat := by
  have h := Int.emod_lt_of_pos v (show (0 : ℤ) < 256 by norm_num)
  have h' := Int.emod_nonneg v (show (256 : ℤ) ≠ 0 by norm_num)
  simp only [byteAt, pow_zero, Int.ediv_one]
  exact UInt8.toNat_ofNat_of_lt' (by rw [UInt8.size]; omega)

/-- The unsigned value of the `k` bytes from offset `a` on. -/
def loadLE (m : Memory) : ℕ → ℕ → ℕ
  | _, 0 => 0
  | a, k + 1 => (m a).toNat + 256 * loadLE m (a + 1) k

def storeLE (m : Memory) (a k : ℕ) (v : ℤ) : Memory := storeBytes m a k (byteAt v)

theorem loadLE_congr {m m' : Memory} {a k : ℕ} (h : ∀ i < k, m (a + i) = m' (a + i)) :
    loadLE m a k = loadLE m' a k := by
  induction k generalizing a with
  | zero => rfl
  | succ k ih =>
    have h0 := h 0 (by omega)
    have ht := ih (a := a + 1) (fun i hi => by
      have := h (i + 1) (by omega)
      rwa [show a + (i + 1) = a + 1 + i by omega] at this)
    simp only [loadLE, ht]
    rw [show m a = m' a from h0]

/-- A store outside the loaded bytes is invisible to the load. -/
theorem loadLE_storeBytes {m : Memory} {a k b len : ℕ} {src : ℕ → UInt8}
    (h : a + k ≤ b ∨ b + len ≤ a) : loadLE (storeBytes m b len src) a k = loadLE m a k :=
  loadLE_congr fun i hi => storeBytes_of_not_mem (by omega)

lemma loadLE_of_byteAt {m : Memory} {a k : ℕ} {v : ℤ} (h : ∀ i < k, m (a + i) = byteAt v i) :
    (loadLE m a k : ℤ) = v % 256 ^ k := by
  induction k generalizing a v with
  | zero => simp [loadLE]
  | succ k ih =>
    have h0 : m a = byteAt v 0 := h 0 (by omega)
    have ht := ih (a := a + 1) (v := v / 256) (fun i hi => by
      rw [← byteAt_succ, ← h (i + 1) (by omega), show a + 1 + i = a + (i + 1) by omega])
    have hb := byteAt_toNat v
    have hsplit : v % 256 ^ (k + 1) = v % 256 + 256 * (v / 256 % 256 ^ k) := by
      rw [pow_succ', Int.emod_def, ← Int.ediv_ediv_of_nonneg (by norm_num), Int.emod_def,
        Int.emod_def]
      ring
    have hnn := Int.emod_nonneg v (show (256 : ℤ) ≠ 0 by norm_num)
    simp only [loadLE, h0, hb, Nat.cast_add, Nat.cast_mul, ht, hsplit, Int.toNat_of_nonneg hnn]
    norm_num

theorem loadLE_storeLE (m : Memory) (a k : ℕ) (v : ℤ) :
    (loadLE (storeLE m a k v) a k : ℤ) = v % 256 ^ k :=
  loadLE_of_byteAt fun i hi => by simp [storeLE, hi]

/-- Two's complement reading of a `k`-byte number. -/
def toSigned (k u : ℕ) : ℤ := if 2 * u < 256 ^ k then u else (u : ℤ) - 256 ^ k

/-- The signed integer of `k` bytes at offset `a`. -/
def loadInt (m : Memory) (a k : ℕ) : ℤ := toSigned k (loadLE m a k)

theorem loadInt_congr {m m' : Memory} {a k : ℕ} (h : ∀ i < k, m (a + i) = m' (a + i)) :
    loadInt m a k = loadInt m' a k := by rw [loadInt, loadInt, loadLE_congr h]

theorem loadInt_storeBytes {m : Memory} {a k b len : ℕ} {src : ℕ → UInt8}
    (h : a + k ≤ b ∨ b + len ≤ a) : loadInt (storeBytes m b len src) a k = loadInt m a k := by
  rw [loadInt, loadInt, loadLE_storeBytes h]

theorem loadInt_storeLE_ne {m : Memory} {a k b len : ℕ} {v : ℤ} (h : a + k ≤ b ∨ b + len ≤ a) :
    loadInt (storeLE m b len v) a k = loadInt m a k := loadInt_storeBytes h

/-- A value in the range of the type is read back. -/
theorem loadInt_storeLE {m : Memory} {a k : ℕ} {v : ℤ}
    (hl : -256 ^ k ≤ 2 * v) (hu : 2 * v < 256 ^ k) : loadInt (storeLE m a k v) a k = v := by
  have h := loadLE_storeLE m a k v
  have hp : (0 : ℤ) < 256 ^ k := by positivity
  have hc : ((256 ^ k : ℕ) : ℤ) = 256 ^ k := by push_cast; rfl
  rw [loadInt, toSigned]
  by_cases hv : 0 ≤ v
  · rw [Int.emod_eq_of_lt hv (by omega)] at h
    rw [if_pos (by omega)]
    exact h
  · have hm : v % 256 ^ k = v + 256 ^ k := by
      rw [← Int.add_emod_right, Int.emod_eq_of_lt (by omega) (by omega)]
    rw [hm] at h
    rw [if_neg (by omega)]
    omega

@[simp] theorem loadLE_zero (a k : ℕ) : loadLE (fun _ => 0) a k = 0 := by
  induction k generalizing a with
  | zero => rfl
  | succ k ih => simp [loadLE, ih]

theorem loadInt_of_zero {m : Memory} {a k : ℕ} (h : ∀ i < k, m (a + i) = 0) :
    loadInt m a k = 0 := by
  have hz : loadLE m a k = loadLE (fun _ => 0) a k := loadLE_congr h
  rw [loadInt, hz, loadLE_zero, toSigned]
  simp

/-- A C string: its bytes before the terminating zero. -/
structure CString where
  bytes : List UInt8
  noNul : ∀ c ∈ bytes, c ≠ 0
  deriving DecidableEq

namespace CString

def length (k : CString) : ℕ := k.bytes.length

/-- Byte `i` of the array, the terminator included. -/
def char (k : CString) (i : ℕ) : UInt8 := k.bytes.getD i 0

@[simp] theorem char_length (k : CString) : k.char k.length = 0 := by
  simp [char, length]

lemma char_ne_zero (k : CString) {i : ℕ} (h : i < k.length) : k.char i ≠ 0 := by
  have hi : i < k.bytes.length := h
  rw [char, List.getD_eq_getElem _ _ hi]
  exact k.noNul _ (List.getElem_mem hi)

theorem ext_char {k k' : CString} (hl : k.length = k'.length)
    (h : ∀ i < k.length, k.char i = k'.char i) : k = k' := by
  obtain ⟨b, hb⟩ := k
  obtain ⟨b', hb'⟩ := k'
  simp only [length, char] at hl h
  congr 1
  apply List.ext_getElem hl
  intro i hi hi'
  have := h i hi
  simpa [List.getD, hi, hi'] using this

end CString

/-- `strcmp(m + a, key) == 0`. -/
def strEq (m : Memory) : ℕ → List UInt8 → Bool
  | a, [] => m a == 0
  | a, c :: cs => m a == c && strEq m (a + 1) cs

def strcmpEq (m : Memory) (a : ℕ) (key : CString) : Bool := strEq m a key.bytes

/-- `strcpy(m + a, key)`. -/
def strcpy (m : Memory) (a : ℕ) (key : CString) : Memory :=
  storeBytes m a (key.length + 1) key.char

lemma strEq_iff (m : Memory) (a : ℕ) (cs : List UInt8) :
    strEq m a cs = true ↔ ∀ i ≤ cs.length, m (a + i) = cs.getD i 0 := by
  induction cs generalizing a with
  | nil =>
    constructor
    · intro h i hi
      obtain rfl : i = 0 := by simpa using hi
      simpa [strEq] using h
    · intro h
      simpa [strEq] using h 0 le_rfl
  | cons c cs ih =>
    simp only [strEq, Bool.and_eq_true, beq_iff_eq, ih, List.length_cons]
    constructor
    · rintro ⟨h0, h⟩ i hi
      cases i with
      | zero => simpa using h0
      | succ i =>
        have := h i (by omega)
        rwa [show a + (i + 1) = a + 1 + i by omega, List.getD_cons_succ]
    · intro h
      refine ⟨by simpa using h 0 (by omega), fun i hi => ?_⟩
      have := h (i + 1) (by omega)
      rwa [show a + (i + 1) = a + 1 + i by omega, List.getD_cons_succ] at this

theorem strcmpEq_iff (m : Memory) (a : ℕ) (key : CString) :
    strcmpEq m a key = true ↔ ∀ i ≤ key.length, m (a + i) = key.char i := strEq_iff m a key.bytes

/-- The bytes at an address spell at most one string. -/
theorem strcmpEq_inj {m : Memory} {a : ℕ} {k k' : CString}
    (h : strcmpEq m a k = true) (h' : strcmpEq m a k' = true) : k = k' := by
  rw [strcmpEq_iff] at h h'
  have hlen : k.length = k'.length := by
    rcases lt_trichotomy k.length k'.length with hlt | heq | hgt
    · have := h' k.length (by omega)
      rw [h k.length le_rfl, k.char_length] at this
      exact absurd this.symm (k'.char_ne_zero hlt)
    · exact heq
    · have := h k'.length (by omega)
      rw [h' k'.length le_rfl, k'.char_length] at this
      exact absurd this.symm (k.char_ne_zero hgt)
  exact CString.ext_char hlen fun i hi => by rw [← h i (by omega), h' i (by omega)]

@[simp] theorem strcmpEq_strcpy_self (m : Memory) (a : ℕ) (k : CString) :
    strcmpEq (strcpy m a k) a k = true := by
  rw [strcmpEq_iff]
  intro i hi
  exact storeBytes_add (by omega)

theorem strcmpEq_strcpy (m : Memory) (a : ℕ) (k k' : CString) :
    strcmpEq (strcpy m a k) a k' = true ↔ k = k' :=
  ⟨fun h => strcmpEq_inj (strcmpEq_strcpy_self m a k) h, fun h => h ▸ strcmpEq_strcpy_self m a k⟩

theorem strcmpEq_congr {m m' : Memory} {a : ℕ} {k : CString}
    (h : ∀ i ≤ k.length, m (a + i) = m' (a + i)) : strcmpEq m a k = strcmpEq m' a k := by
  rw [Bool.eq_iff_iff, strcmpEq_iff, strcmpEq_iff]
  exact forall₂_congr fun i hi => by rw [h i hi]

theorem strcmpEq_storeBytes {m : Memory} {a b len : ℕ} {src : ℕ → UInt8} {k : CString}
    (h : a + k.length < b ∨ b + len ≤ a) :
    strcmpEq (storeBytes m b len src) a k = strcmpEq m a k :=
  strcmpEq_congr fun i hi => storeBytes_of_not_mem (by omega)

end OsAssignments.ByteMemory
