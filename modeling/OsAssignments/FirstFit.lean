import OsAssignments.Slots

/-!
# The searches for a free bit

`create_object` and `objstore_write` search a bitmap with three copies of one doubly
nested loop, which differ in how they notice a hit: a flag, a return, and a block number
that is no longer -1. With their variables as they are in the source, each of them stops
where the scan of the store does, as long as the numbers of the bits are ints.
-/
namespace OsAssignments.FirstFit

open ByteMemory Bitmap ObjectTable

variable {σ : Type} {w : Words} {len m n : ℕ}

section Loops

/-- A doubly nested loop over the bits of a bitmap: its body for word `i` and bit `j`, the test
that breaks off both loops, the end of the inner body, and the start of the outer one. -/
structure Search (σ : Type) where
  body : ℕ → ℕ → σ → σ
  stop : σ → Bool
  next : σ → σ
  reset : σ → σ

variable (S : Search σ)

/-- The inner loop, over `k` more bits from the `j`-th on. -/
def Search.bits (i : ℕ) : ℕ → ℕ → σ → σ
  | 0, _, s => s
  | k + 1, j, s =>
    let s := S.body i j s
    if S.stop s then s else bits i k (j + 1) (S.next s)

/-- The outer loop, over `rows` more words from the `i`-th on. Its bound is an int, so the
counter never wraps. -/
def Search.words : ℕ → ℕ → σ → σ
  | 0, _, s => s
  | rows + 1, i, s =>
    let s := S.bits i 32 0 (S.reset s)
    if S.stop s then s else words rows (i + 1) s

/-- The loop runs in the states `run val cnt` and leaves a clear bit in the state `hit f`. -/
structure Search.Scans (w : Words) (len : ℕ) (run : BitVec 32 → ℕ → σ) (hit : Found → σ) :
    Prop where
  body : ∀ i j val cnt, i < len → S.body i j (run val cnt) =
    if freeTest (w i) val cnt then hit ⟨i, j, val, cnt⟩ else run val cnt
  running : ∀ val cnt, S.stop (run val cnt) = false
  stopped : ∀ f : Found, f.i < len → f.j < 32 → S.stop (hit f) = true
  next : ∀ val cnt, S.next (run val cnt) = run (val * 2#32) (cnt + 1)
  reset : ∀ val cnt, S.reset (run val cnt) = run 1#32 cnt

namespace Search.Scans

variable {S} {run : BitVec 32 → ℕ → σ} {hit : Found → σ} (h : S.Scans w len run hit)
include h

/-- The inner loop does what the scan of one word does. -/
lemma bits_eq {i k j : ℕ} (val : BitVec 32) (cnt : ℕ) (hi : i < len) (hj : j + k ≤ 32) :
    match scanWord (freeTest (w i)) i k j val cnt with
    | .inl f => S.bits i k j (run val cnt) = hit f ∧ f.i = i ∧ f.j < 32
    | .inr cnt' => ∃ val', S.bits i k j (run val cnt) = run val' cnt' := by
  induction k generalizing j val cnt with
  | zero => exact ⟨val, rfl⟩
  | succ k ih =>
    simp only [scanWord, Search.bits, h.body i j val cnt hi]
    by_cases ht : freeTest (w i) val cnt
    · rw [if_pos ht, if_pos ht, h.stopped _ hi (by dsimp only; omega)]
      exact ⟨rfl, rfl, by dsimp only; omega⟩
    · rw [if_neg ht, if_neg ht, h.running, h.next]
      exact ih _ _ (by omega)

/-- The loops do what the scan of the bitmap does. -/
theorem words_eq (rows : ℕ) {i : ℕ} (val : BitVec 32) (cnt : ℕ) (hi : i + rows ≤ len) :
    match scan w freeTest rows i cnt with
    | some f => S.words rows i (run val cnt) = hit f
    | none => ∃ val' cnt', S.words rows i (run val cnt) = run val' cnt' := by
  induction rows generalizing i val cnt with
  | zero => exact ⟨val, cnt, rfl⟩
  | succ rows ih =>
    have hrow := h.bits_eq 1#32 cnt (i := i) (k := 32) (j := 0) (by omega) le_rfl
    simp only [scan, Search.words, h.reset]
    cases hscan : scanWord (freeTest (w i)) i 32 0 1#32 cnt with
    | inl f =>
      rw [hscan] at hrow
      obtain ⟨hbits, hfi, hfj⟩ := hrow
      rw [hbits, h.stopped f (by omega) hfj]
      rfl
    | inr cnt' =>
      rw [hscan] at hrow
      obtain ⟨val', hbits⟩ := hrow
      rw [hbits, h.running]
      exact ih _ _ (by omega)

/-- All that the loops can do from the start. -/
theorem words_cases (val : BitVec 32) :
    (∃ m, FirstFree w (32 * len) m ∧ S.words len 0 (run val 0) = hit (foundAt m)) ∨
      ((∀ n < 32 * len, bit w n = true) ∧
        ∃ val' cnt', S.words len 0 (run val 0) = run val' cnt') := by
  have hwords := h.words_eq len val 0 (i := 0) (by omega)
  rcases scan_cases w freeTest len with ⟨m, hm, hscan⟩ | ⟨hnone, hscan⟩
  · rw [hscan] at hwords
    rw [hit_freeTest] at hm
    exact Or.inl ⟨m, hm, hwords⟩
  · rw [hscan] at hwords
    rw [hit_freeTest] at hnone
    exact Or.inr ⟨fun n hn => by simpa using hnone n hn, hwords⟩

end Search.Scans

end Loops

section Searches

/-- The variables of the search in `create_object`: the pointers `cnt` and `free` are
numbers of records. -/
structure CreateVars where
  words : Words
  val : BitVec 32
  cnt : ℕ
  free : Option ℕ
  id : ℤ
  flag : Bool

/-- The search of `create_object`. The sum `i*32+j+2` is an int, stored in a long. -/
def createLoop : Search CreateVars where
  body i j s :=
    if s.words i &&& s.val == 0#32 then
      { s with
        free := some s.cnt
        id := (BitVec.ofNat 32 i * 32#32 + BitVec.ofNat 32 j + 2#32).toInt
        words := orWord s.words i s.val
        flag := true }
    else s
  stop s := s.flag
  next s := { s with cnt := s.cnt + 1, val := s.val * 2#32 }
  reset s := { s with val := 1#32 }

def createSearch (w : Words) (len : ℕ) : CreateVars :=
  createLoop.words len 0 ⟨w, 1#32, 0, none, 0, false⟩

/-- The variables of the search for a data block. The source goes on with `i*32+j` from
inside the loop and does not come back to it. -/
structure DataVars where
  words : Words
  val : BitVec 32
  block : Option (BitVec 32)

/-- The search of `objstore_write` for a data block. -/
def dataLoop : Search DataVars where
  body i j s :=
    if s.words i &&& s.val == 0#32 then
      { s with
        words := orWord s.words i s.val
        block := some (BitVec.ofNat 32 i * 32#32 + BitVec.ofNat 32 j) }
    else s
  stop s := s.block.isSome
  next s := { s with val := s.val * 2#32 }
  reset s := { s with val := 1#32 }

def dataSearch (w : Words) (len : ℕ) : DataVars := dataLoop.words len 0 ⟨w, 1#32, none⟩

/-- The variables of the search for an indirect block. -/
structure IndirectVars where
  words : Words
  val1 : BitVec 32
  blk : BitVec 32

/-- The search of `objstore_write` for an indirect block. -/
def indirectLoop : Search IndirectVars where
  body k1 j1 s :=
    if s.words k1 &&& s.val1 == 0#32 then
      { s with
        words := orWord s.words k1 s.val1
        blk := BitVec.ofNat 32 k1 * 32#32 + BitVec.ofNat 32 j1 }
    else s
  stop s := s.blk != -1#32
  next s := { s with val1 := s.val1 * 2#32 }
  reset s := { s with val1 := 1#32 }

def indirectSearch (w : Words) (len : ℕ) : IndirectVars :=
  indirectLoop.words len 0 ⟨w, 1#32, -1#32⟩

/-- `k=del/32; mo=del%32; w[k]^=(1<<mo)` for an int `del`. -/
def freeBit (w : Words) (del : BitVec 32) : Words := toggleBit w del.toInt

end Searches

section Stops

/-- The int `i*32+j`. -/
lemma index_eq (i j : ℕ) :
    BitVec.ofNat 32 i * 32#32 + BitVec.ofNat 32 j = BitVec.ofNat 32 (i * 32 + j) := by
  rw [BitVec.ofNat_add, BitVec.ofNat_mul]

/-- An index is -1 as an int when it is one below a multiple of 2^32. -/
lemma index_ne (hn : n < 2 ^ 32 - 1) : BitVec.ofNat 32 n ≠ -1#32 := by
  intro h
  have hval := congrArg BitVec.toNat h
  simp only [BitVec.toNat_ofNat] at hval
  rw [Nat.mod_eq_of_lt (by omega)] at hval
  exact absurd hval (by simp; omega)

lemma create_scans (w : Words) (len : ℕ) :
    createLoop.Scans w len (fun val cnt => ⟨w, val, cnt, none, 0, false⟩)
    fun f => ⟨orWord w f.i f.val, f.val, f.cnt, some f.cnt,
      (BitVec.ofNat 32 (f.i * 32 + f.j + 2)).toInt, true⟩ where
  body i j val cnt _ := by
    simp only [createLoop, freeTest, index_eq, BitVec.ofNat_add]
  running _ _ := rfl
  stopped _ _ _ := rfl
  next _ _ := rfl
  reset _ _ := rfl

lemma data_scans (w : Words) (len : ℕ) :
    dataLoop.Scans w len (fun val _ => ⟨w, val, none⟩)
    fun f => ⟨orWord w f.i f.val, f.val, some (BitVec.ofNat 32 (f.i * 32 + f.j))⟩ where
  body i j val _ _ := by
    simp only [dataLoop, freeTest, index_eq]
    rfl
  running _ _ := rfl
  stopped _ _ _ := rfl
  next _ _ := rfl
  reset _ _ := rfl

/-- The number of a block found in a longer bitmap could be -1. -/
lemma indirect_scans (w : Words) (hlen : len < 2 ^ 27) :
    indirectLoop.Scans w len (fun val _ => ⟨w, val, -1#32⟩)
      fun f => ⟨orWord w f.i f.val, f.val, BitVec.ofNat 32 (f.i * 32 + f.j)⟩ where
  body i j val _ _ := by
    simp only [indirectLoop, freeTest, index_eq]
    rfl
  running _ _ := rfl
  stopped f hi hj := bne_iff_ne.mpr (index_ne (by omega))
  next _ _ := rfl
  reset _ _ := rfl

end Stops

/-- A search of the first `len` words that left the words `w'` and found the bit `found`. -/
structure Fits (w : Words) (len : ℕ) (found : Option ℕ) (w' : Words) : Prop where
  fails : found = none ↔ ∀ n < 32 * len, bit w n = true
  first : ∀ m, found = some m → FirstFree w (32 * len) m
  bits : ∀ n, bit w' n = (bit w n || decide (found = some n))
  inside : ∀ e : ℤ, e < 0 ∨ len ≤ e → w' e = w e

section Fits

lemma fits_full (h : ∀ n < 32 * len, bit w n = true) : Fits w len none w where
  fails := by simpa using h
  first m hm := by contradiction
  bits n := by simp
  inside e _ := rfl

lemma fits_found (h : FirstFree w (32 * len) m) : Fits w len (some m) (setBit w m) where
  fails := by
    constructor
    · intro hnone
      contradiction
    · intro hfull
      have hset := hfull m h.1
      rw [h.clear] at hset
      contradiction
  first n hn := by
    cases hn
    exact h
  bits n := by simp
  inside e he := by
    have hm := h.1
    exact Function.update_of_ne (by omega) _ _

/-- The search of `create_object` hands out the first free record, under its number. -/
def CreateFits (w : Words) (len : ℕ) : Prop :=
  Fits w len (createSearch w len).free (createSearch w len).words ∧
    ∀ m, (createSearch w len).free = some m →
      (createSearch w len).cnt = m ∧ (createSearch w len).id = Int.bmod (m + 2 : ℕ) (2 ^ 32)

/-- The search for a data block takes the first free one. -/
def DataFits (w : Words) (len : ℕ) : Prop :=
  ∃ found, Fits w len found (dataSearch w len).words ∧
    (dataSearch w len).block = found.map (BitVec.ofNat 32)

/-- The search for an indirect block takes the first free one, and leaves -1 without one. -/
def IndirectFits (w : Words) (len : ℕ) : Prop :=
  ∃ found, Fits w len found (indirectSearch w len).words ∧
    ((indirectSearch w len).blk = -1#32 ↔ found = none) ∧
    ∀ m, found = some m → (indirectSearch w len).blk = BitVec.ofNat 32 m

/-- Freeing index `k` clears its bit and no other. -/
def Frees (w : Words) (k : ℕ) : Prop :=
  ∀ m, bit (freeBit w (BitVec.ofNat 32 k)) m = (bit w m && decide (m ≠ k))

theorem create_fits (w : Words) (len : ℕ) : CreateFits w len := by
  unfold CreateFits createSearch
  rcases (create_scans w len).words_cases 1#32 with
    ⟨m, hm, heq⟩ | ⟨hfull, val, cnt, heq⟩
  · rw [heq]
    refine ⟨fits_found hm, fun n hn => ?_⟩
    cases hn
    refine ⟨rfl, ?_⟩
    simp only [foundAt_index]
    exact BitVec.toInt_ofNat' (m + 2)
  · rw [heq]
    exact ⟨fits_full hfull, fun n hn => by contradiction⟩

theorem data_fits (w : Words) (len : ℕ) : DataFits w len := by
  unfold DataFits dataSearch
  rcases (data_scans w len).words_cases 1#32 with
    ⟨m, hm, heq⟩ | ⟨hfull, val, cnt, heq⟩
  · rw [heq]
    exact ⟨some m, fits_found hm, by simp⟩
  · rw [heq]
    exact ⟨none, fits_full hfull, rfl⟩

theorem indirect_fits (w : Words) (hlen : len < 2 ^ 27) : IndirectFits w len := by
  unfold IndirectFits indirectSearch
  rcases (indirect_scans w hlen).words_cases 1#32 with
    ⟨m, hm, heq⟩ | ⟨hfull, val, cnt, heq⟩
  · rw [heq]
    have hne : BitVec.ofNat 32 m ≠ -1#32 := index_ne (by have := hm.1; omega)
    refine ⟨some m, fits_found hm, by simpa using hne, fun n hn => ?_⟩
    cases hn
    simp
  · rw [heq]
    exact ⟨none, fits_full hfull, by simp, fun n hn => by contradiction⟩

theorem frees_int {k : ℕ} (hk : k < 2 ^ 31) (hset : bit w k = true) : Frees w k := by
  intro m
  have hint : (BitVec.ofNat 32 k).toInt = k := by
    rw [BitVec.toInt_ofNat', Int.bmod_eq_of_le (by omega) (by omega)]
  rw [freeBit, hint, bit_toggleBit]
  by_cases hm : k = m
  · subst hm
    simp [hset]
  · simp [hm, Ne.symm hm]

/-- On an array the searches find, take and number the first free bit, and every index of it
can be freed. -/
structure Allocates (w : Words) (len : ℕ) : Prop where
  create : CreateFits w len
  data : DataFits w len
  indirect : IndirectFits w len
  frees : ∀ k < 32 * len, bit w k = true → Frees w k

/-- The three searches are first-fit allocators, the one for an indirect block as long as no
block number is -1, and an index that is an int can be freed. -/
theorem searches_first_fit (w : Words) (len : ℕ) :
    CreateFits w len ∧ DataFits w len ∧ (len < 2 ^ 27 → IndirectFits w len) ∧
      ∀ k < 2 ^ 31, bit w k = true → Frees w k :=
  ⟨create_fits w len, data_fits w len, indirect_fits w, fun _ => frees_int⟩

/-- The index 2^31 is a negative int, so its cell is in front of the array. -/
theorem high_index_kept : ¬∀ (w : Words) (len : ℕ), len < 2 ^ 31 → Allocates w len := by
  intro h
  have hset : bit (fun _ => BitVec.allOnes 32) (2 ^ 31) = true := by simp [bit]
  have hfrees := (h (fun _ => BitVec.allOnes 32) (2 ^ 26 + 1) (by norm_num)).frees (2 ^ 31)
    (by norm_num) hset (2 ^ 31)
  have hkept : bit (freeBit (fun _ => BitVec.allOnes 32) (BitVec.ofNat 32 (2 ^ 31))) (2 ^ 31) =
      true := by
    have hcell : ((2 ^ 31 / 32 : ℕ) : ℤ) ≠ (BitVec.ofNat 32 (2 ^ 31)).toInt.tdiv 32 := by decide
    rw [freeBit, toggleBit, xorWord, bit, Function.update_of_ne hcell]
    exact hset
  rw [hkept] at hfrees
  simp at hfrees

end Fits

/-! ### The searches of the store -/

section Stores

variable {s : Store} {key : CString}

/-- `create_object` searches the inode bitmap. -/
theorem createObject_search :
    createObject s key =
      match (createSearch s.bitMapInode maxInodes).free with
      | none => some (s, -1)
      | some n =>
        if KeyInObjs n key then
          some ({ s.markDirty n with
            objs := setKey (setId s.objs n (createSearch s.bitMapInode maxInodes).id) n key
            bitMapInode := (createSearch s.bitMapInode maxInodes).words },
            (createSearch s.bitMapInode maxInodes).id)
        else none := by
  rcases (create_scans s.bitMapInode maxInodes).words_cases 1#32 with
    ⟨m, hm, heq⟩ | ⟨hfull, val, cnt, heq⟩
  · have hid : Int.bmod (m + 2 : ℕ) (2 ^ 32) = (m + 2 : ℕ) := by
      have hlt := hm.1
      rw [maxInodes_eq] at hlt
      exact Int.bmod_eq_of_le (by omega) (by omega)
    rw [createObject_eq hm, createSearch, heq]
    simp only [foundAt_index, BitVec.toInt_ofNat', hid, orWord_foundAt]
    rfl
  · have hnone : freeBits s.bitMapInode slotCount = ∅ := by
      ext n
      simp only [mem_freeBits, Finset.notMem_empty, iff_false, not_and, Bool.not_eq_false]
      exact hfull n
    rw [createObject_full hnone, createSearch, heq]

/-- A write searches the data bitmap for its block. -/
theorem searchFree_data :
    match searchFree s with
    | some f => (dataSearch s.bitMapData dataWords).words = orWord s.bitMapData f.i f.val ∧
      (dataSearch s.bitMapData dataWords).block = some (BitVec.ofNat 32 (f.i * 32 + f.j))
    | none => (dataSearch s.bitMapData dataWords).block = none := by
  have hwords := (data_scans s.bitMapData dataWords).words_eq dataWords 1#32 0 (i := 0) (by omega)
  unfold searchFree dataSearch
  cases hscan : scan s.bitMapData freeTest dataWords 0 0 with
  | none =>
    rw [hscan] at hwords
    obtain ⟨val, cnt, heq⟩ := hwords
    exact congrArg DataVars.block heq
  | some f =>
    rw [hscan] at hwords
    exact ⟨congrArg DataVars.words hwords, congrArg DataVars.block hwords⟩

/-- A write that needs an indirect block searches the data bitmap once more. -/
theorem searchFree_indirect :
    match searchFree s with
    | some f => (indirectSearch s.bitMapData dataWords).words = orWord s.bitMapData f.i f.val ∧
      (indirectSearch s.bitMapData dataWords).blk = BitVec.ofNat 32 (f.i * 32 + f.j)
    | none => (indirectSearch s.bitMapData dataWords).words = s.bitMapData ∧
      (indirectSearch s.bitMapData dataWords).blk = -1#32 := by
  have hlen : dataWords < 2 ^ 27 := by
    rw [dataWords_eq]
    norm_num
  have hwords := (indirect_scans s.bitMapData hlen).words_eq dataWords 1#32 0 (i := 0) (by omega)
  unfold searchFree indirectSearch
  cases hscan : scan s.bitMapData freeTest dataWords 0 0 with
  | none =>
    rw [hscan] at hwords
    obtain ⟨val, cnt, heq⟩ := hwords
    exact ⟨congrArg IndirectVars.words heq, congrArg IndirectVars.blk heq⟩
  | some f =>
    rw [hscan] at hwords
    exact ⟨congrArg IndirectVars.words hwords, congrArg IndirectVars.blk hwords⟩

end Stores

end OsAssignments.FirstFit
