import OsAssignments.ByteMemory
import OsAssignments.Disk

/-!
# The object table

`objs` is raw memory; record `n` is the 96 bytes from `96 * n` on, laid out as

    long id; long size; char key[48]; int direct[4]; int indirect[4];

The eight block pointers are consecutive, so pointer `j` is `direct[j]` below 4
and `indirect[j - 4]` from there on. The lemmas say what each field store does
to each field of each record.
-/
namespace OsAssignments.ObjectTable

open ByteMemory

/-- Record `n` lies inside the mapping behind `objs`. -/
def InObjs (n : ℕ) : Prop := 96 * n + 96 ≤ objectBlock * blockSize

instance (n : ℕ) : Decidable (InObjs n) := inferInstanceAs (Decidable (_ ≤ _))

lemma inObjs_iff {n : ℕ} : InObjs n ↔ n < 961194 := by
  have hbytes : objectBlock * blockSize = 92274688 := rfl
  rw [InObjs, hbytes]
  omega

lemma InObjs.mono {n m : ℕ} (h : InObjs n) (hm : m ≤ n) : InObjs m := by
  rw [inObjs_iff] at *
  omega

def objId (m : Memory) (n : ℕ) : ℤ := loadInt m (96 * n) 8

def objSize (m : Memory) (n : ℕ) : ℤ := loadInt m (96 * n + 8) 8

/-- The address of the key field. -/
def keyAddr (n : ℕ) : ℕ := 96 * n + 16

def pointer (m : Memory) (n j : ℕ) : ℤ := loadInt m (96 * n + 64 + 4 * j) 4

abbrev direct (m : Memory) (n l : ℕ) : ℤ := pointer m n l

abbrev indirect (m : Memory) (n l : ℕ) : ℤ := pointer m n (4 + l)

def setId (m : Memory) (n : ℕ) (v : ℤ) : Memory := storeLE m (96 * n) 8 v

def setSize (m : Memory) (n : ℕ) (v : ℤ) : Memory := storeLE m (96 * n + 8) 8 v

def setPointer (m : Memory) (n j : ℕ) (v : ℤ) : Memory :=
  storeLE m (96 * n + 64 + 4 * j) 4 v

/-- `strcpy(objs[n].key, key)`. -/
def setKey (m : Memory) (n : ℕ) (key : CString) : Memory := strcpy m (keyAddr n) key

/-- `strcmp(objs[n].key, key) == 0`. -/
def keyIs (m : Memory) (n : ℕ) (key : CString) : Bool := strcmpEq m (keyAddr n) key

/-- The record has a key of at most 47 bytes: with its terminator it fits the field. -/
def Fits (key : CString) : Prop := key.length ≤ 47

instance (key : CString) : Decidable (Fits key) := inferInstanceAs (Decidable (_ ≤ _))

variable {m : Memory} {n n' j j' : ℕ} {v : ℤ} {key key' : CString}

section Id

theorem objId_setId (hv : -2 ^ 63 ≤ v ∧ v < 2 ^ 63) :
    objId (setId m n v) n' = if n = n' then v else objId m n' := by
  split_ifs with h
  · subst h
    exact loadInt_storeLE (by norm_num; omega) (by norm_num; omega)
  · exact loadInt_storeLE_ne (by omega)

@[simp] theorem objId_setSize : objId (setSize m n v) n' = objId m n' :=
  loadInt_storeLE_ne (by omega)

@[simp] theorem objId_setPointer (hj : j < 8) : objId (setPointer m n j v) n' = objId m n' :=
  loadInt_storeLE_ne (by omega)

@[simp] theorem objId_setKey (hk : Fits key) : objId (setKey m n key) n' = objId m n' :=
  loadInt_storeBytes (by have : key.length ≤ 47 := hk; simp only [keyAddr]; omega)

end Id

section Size

@[simp] theorem objSize_setId : objSize (setId m n v) n' = objSize m n' :=
  loadInt_storeLE_ne (by omega)

theorem objSize_setSize (hv : -2 ^ 63 ≤ v ∧ v < 2 ^ 63) :
    objSize (setSize m n v) n' = if n = n' then v else objSize m n' := by
  split_ifs with h
  · subst h
    exact loadInt_storeLE (by norm_num; omega) (by norm_num; omega)
  · exact loadInt_storeLE_ne (by omega)

theorem objSize_setSize_ne (h : n ≠ n') : objSize (setSize m n v) n' = objSize m n' :=
  loadInt_storeLE_ne (by omega)

@[simp] theorem objSize_setPointer (hj : j < 8) : objSize (setPointer m n j v) n' = objSize m n' :=
  loadInt_storeLE_ne (by omega)

@[simp] theorem objSize_setKey (hk : Fits key) : objSize (setKey m n key) n' = objSize m n' :=
  loadInt_storeBytes (by have : key.length ≤ 47 := hk; simp only [keyAddr]; omega)

end Size

section Pointer

@[simp] theorem pointer_setId (hj : j < 8) : pointer (setId m n v) n' j = pointer m n' j :=
  loadInt_storeLE_ne (by omega)

@[simp] theorem pointer_setSize (hj : j < 8) : pointer (setSize m n v) n' j = pointer m n' j :=
  loadInt_storeLE_ne (by omega)

theorem pointer_setPointer (hj : j < 8) (hj' : j' < 8) (hv : -2 ^ 31 ≤ v ∧ v < 2 ^ 31) :
    pointer (setPointer m n j v) n' j' = if n = n' ∧ j = j' then v else pointer m n' j' := by
  split_ifs with h
  · obtain ⟨rfl, rfl⟩ := h
    exact loadInt_storeLE (by norm_num; omega) (by norm_num; omega)
  · exact loadInt_storeLE_ne (by omega)

theorem pointer_setPointer_ne (hj : j < 8) (hj' : j' < 8) (h : n ≠ n' ∨ j ≠ j') :
    pointer (setPointer m n j v) n' j' = pointer m n' j' := loadInt_storeLE_ne (by omega)

@[simp] theorem pointer_setKey (hj : j < 8) (hk : Fits key) :
    pointer (setKey m n key) n' j = pointer m n' j :=
  loadInt_storeBytes (by have : key.length ≤ 47 := hk; simp only [keyAddr]; omega)

end Pointer

section Key

@[simp] theorem keyIs_setId (hk : Fits key) : keyIs (setId m n v) n' key = keyIs m n' key :=
  strcmpEq_storeBytes (by have : key.length ≤ 47 := hk; simp only [keyAddr]; omega)

@[simp] theorem keyIs_setSize (hk : Fits key) : keyIs (setSize m n v) n' key = keyIs m n' key :=
  strcmpEq_storeBytes (by have : key.length ≤ 47 := hk; simp only [keyAddr]; omega)

@[simp] theorem keyIs_setPointer (hj : j < 8) (hk : Fits key) :
    keyIs (setPointer m n j v) n' key = keyIs m n' key :=
  strcmpEq_storeBytes (by have : key.length ≤ 47 := hk; simp only [keyAddr]; omega)

theorem keyIs_setKey_self : keyIs (setKey m n key) n key' = true ↔ key = key' :=
  strcmpEq_strcpy m (keyAddr n) key key'

theorem keyIs_setKey_ne (hk : Fits key) (hk' : Fits key') (hn : n ≠ n') :
    keyIs (setKey m n key) n' key' = keyIs m n' key' :=
  strcmpEq_storeBytes (by
    have : key.length ≤ 47 := hk
    have : key'.length ≤ 47 := hk'
    simp only [keyAddr]
    omega)

/-- A record spells at most one key. -/
theorem keyIs_inj (h : keyIs m n key = true) (h' : keyIs m n key' = true) : key = key' :=
  strcmpEq_inj h h'

end Key

/-- Table `m'` is table `m` but for the pointers of record `n`, which is `grow`
bytes longer. -/
structure Resized (m m' : Memory) (n grow : ℕ) : Prop where
  ids : ∀ i, objId m' i = objId m i
  keys : ∀ i key, Fits key → keyIs m' i key = keyIs m i key
  sizes : ∀ i, i ≠ n → objSize m' i = objSize m i
  grown : ∀ z, objSize m n = z → 0 ≤ z → z + grow < 2 ^ 63 → objSize m' n = z + grow
  pointers : ∀ i j, i ≠ n → j < 8 → pointer m' i j = pointer m i j

namespace Resized

variable {grow : ℕ}

theorem refl (m : Memory) (n : ℕ) : Resized m m n 0 :=
  ⟨fun _ => rfl, fun _ _ _ => rfl, fun _ _ => rfl, fun z hz _ _ => by simpa using hz,
    fun _ _ _ _ => rfl⟩

theorem trans {m m' m'' : Memory} {n : ℕ} (h : Resized m m' n 0) (h' : Resized m' m'' n 0) :
    Resized m m'' n 0 :=
  ⟨fun i => (h'.ids i).trans (h.ids i), fun i key hk => (h'.keys i key hk).trans (h.keys i key hk),
    fun i hi => (h'.sizes i hi).trans (h.sizes i hi),
    fun z hz h0 h63 => h'.grown z (by simpa using h.grown z hz h0 h63) h0 h63,
    fun i j hi hj => (h'.pointers i j hi hj).trans (h.pointers i j hi hj)⟩

theorem pointerOnly (m : Memory) (n : ℕ) {j : ℕ} (hj : j < 8) (v : ℤ) :
    Resized m (setPointer m n j v) n 0 :=
  ⟨fun i => objId_setPointer hj, fun i key hk => keyIs_setPointer hj hk,
    fun i _ => objSize_setPointer hj,
    fun z hz _ _ => (objSize_setPointer hj).trans (by simpa using hz),
    fun i j' hi hj' => pointer_setPointer_ne hj hj' (Or.inl (Ne.symm hi))⟩

theorem size (m : Memory) (n grow : ℕ) : Resized m (setSize m n (objSize m n + grow)) n grow := by
  refine ⟨fun i => objId_setSize, fun i key hk => keyIs_setSize hk, fun i hi => ?_,
    fun z hz h0 h63 => ?_, fun i j _ hj => pointer_setSize hj⟩
  · exact objSize_setSize_ne (Ne.symm hi)
  · rw [hz, objSize_setSize (by omega), if_pos rfl]

theorem pointer (m : Memory) (n : ℕ) {j : ℕ} (hj : j < 8) (v : ℤ) (grow : ℕ) :
    Resized m (setSize (setPointer m n j v) n (objSize m n + grow)) n grow := by
  refine ⟨fun i => ?_, fun i key hk => ?_, fun i hi => ?_, fun z hz h0 h63 => ?_,
    fun i j' hi hj' => ?_⟩
  · rw [objId_setSize, objId_setPointer hj]
  · rw [keyIs_setSize hk, keyIs_setPointer hj hk]
  · rw [objSize_setSize_ne (Ne.symm hi), objSize_setPointer hj]
  · rw [hz, objSize_setSize (by omega), if_pos rfl]
  · rw [pointer_setSize hj', pointer_setPointer_ne hj hj' (Or.inl (Ne.symm hi))]

end Resized

/-- A block seen as a page of memory. -/
def bytes (b : Block) : Memory := fun i => if h : i < blockSize then b ⟨i, h⟩ else 0

/-- The first page of a buffer as a block. -/
def page (m : Memory) : Block := fun i => m i

theorem bytes_page {i : ℕ} (h : i < 4096) : bytes (page m) i = m i := by
  have hi : i < blockSize := h
  simp [bytes, page, hi]

/-- Entry `al` of a block read as an array of 1024 ints. -/
def entry (b : Block) (al : ℕ) : ℤ := loadInt (bytes b) (4 * al) 4

/-- The array with one entry replaced. -/
def setEntry (b : Block) (al : ℕ) (v : ℤ) : Block := page (storeLE (bytes b) (4 * al) 4 v)

theorem entry_setEntry {b : Block} {e e' : ℕ} (he' : e' < 1024)
    (hv : -2 ^ 31 ≤ v ∧ v < 2 ^ 31) :
    entry (setEntry b e v) e' = if e = e' then v else entry b e' := by
  have hpage : entry (setEntry b e v) e' = loadInt (storeLE (bytes b) (4 * e) 4 v) (4 * e') 4 :=
    loadInt_congr fun i hi => bytes_page (by omega)
  rw [hpage]
  split_ifs with h
  · subst h
    exact loadInt_storeLE (by norm_num; omega) (by norm_num; omega)
  · exact loadInt_storeLE_ne (by omega)

@[simp] theorem entry_zero (e : ℕ) : entry (fun _ => 0) e = 0 :=
  loadInt_of_zero fun i _ => by simp [bytes]

end OsAssignments.ObjectTable
