import OsAssignments.ObjStore

/-!
# Record slots and searches

What the nested scans of the store find: the first live record with a key, the
first clear bit of a bitmap. With that the calls that touch one record are
written as one update of the store each.
-/
namespace OsAssignments

open ByteMemory Bitmap ObjectTable

/-- The number of slots the inode scans look at. -/
def slotCount : ℕ := 32 * maxInodes

lemma slotCount_eq : slotCount = 1015808 := rfl

/-- Slot `n` holds a live object. -/
def Store.live (s : Store) (n : ℕ) : Bool := bit s.bitMapInode n

/-- Slot `n` holds a live object named `key`. -/
def Store.named (s : Store) (key : CString) (n : ℕ) : Bool := s.live n && keyIs s.objs n key

/-- `n` is the first slot with a live object named `key`. -/
abbrev Store.KeyAt (s : Store) (key : CString) (n : ℕ) : Prop :=
  FirstBelow (s.named key) slotCount n

/-- No live object is named `key`. -/
def Store.NoKey (s : Store) (key : CString) : Prop := ∀ n < slotCount, s.named key n = false

/-- `n` is the first clear bit among the first `bound`. -/
abbrev FirstFree (w : Words) (bound n : ℕ) : Prop := FirstBelow (fun m => !bit w m) bound n

variable {s : Store} {key key' : CString} {n m : ℕ}

lemma named_iff : s.named key n = true ↔ s.live n = true ∧ keyIs s.objs n key = true := by
  simp [Store.named]

lemma Store.KeyAt.live (h : s.KeyAt key n) : s.live n = true := (named_iff.mp h.2.1).1

lemma Store.KeyAt.keyIs (h : s.KeyAt key n) : keyIs s.objs n key = true := (named_iff.mp h.2.1).2

lemma Store.keyAt_or_noKey (s : Store) (key : CString) : (∃ n, s.KeyAt key n) ∨ s.NoKey key := by
  by_cases h : ∃ n < slotCount, s.named key n = true
  · obtain ⟨n, hn, hk⟩ := h
    obtain ⟨m, _, hm⟩ := exists_firstBelow hn hk
    exact Or.inl ⟨m, hm⟩
  · exact Or.inr fun n hn => by
      by_contra hk
      exact h ⟨n, hn, by simpa using hk⟩

section Scans

lemma mod_lt_word (n : ℕ) : n % 32 < 32 := Nat.mod_lt _ (by norm_num)

lemma hit_freeTest (w : Words) : hit w freeTest = fun n => !bit w n := by
  funext n
  rw [hit, freeTest, and_twoPow_eq_zero _ (mod_lt_word n), bit]

lemma hit_keyTest (s : Store) (key : CString) :
    hit s.bitMapInode (keyTest s.objs key) = s.named key := by
  funext n
  rw [hit, keyTest, and_twoPow_eq_zero _ (mod_lt_word n), Bool.not_not]
  rfl

@[simp] lemma foundAt_index (n : ℕ) : (foundAt n).i * 32 + (foundAt n).j = n := by
  simp only [foundAt]
  omega

@[simp] lemma orWord_foundAt (w : Words) (n : ℕ) :
    orWord w (foundAt n).i (foundAt n).val = setBit w n := rfl

/-- The search for a key stops at the first live object of that name. -/
theorem searchKey_some (h : s.KeyAt key n) : searchKey s key = some (foundAt n) :=
  scan_of_firstBelow (by rwa [hit_keyTest])

theorem searchKey_none (h : s.NoKey key) : searchKey s key = none :=
  scan_of_none (by rwa [hit_keyTest])

theorem scan_free {w : Words} (rows : ℕ) (h : FirstFree w (32 * rows) n) :
    scan w freeTest rows 0 0 = some (foundAt n) :=
  scan_of_firstBelow (by rwa [hit_freeTest])

theorem scan_full {w : Words} (rows : ℕ) (h : freeBits w (32 * rows) = ∅) :
    scan w freeTest rows 0 0 = none := by
  refine scan_of_none fun k hk => ?_
  rw [hit_freeTest]
  by_contra hb
  have hmem : k ∈ freeBits w (32 * rows) := by simpa [mem_freeBits] using ⟨hk, by simpa using hb⟩
  rw [h] at hmem
  exact absurd hmem (Finset.notMem_empty k)

lemma exists_firstFree {w : Words} {bound : ℕ} (h : (freeBits w bound).Nonempty) :
    ∃ n, FirstFree w bound n := by
  obtain ⟨k, hk⟩ := h
  rw [mem_freeBits] at hk
  obtain ⟨n, _, hn⟩ := exists_firstBelow (p := fun m => !bit w m) hk.1 (by simp [hk.2])
  exact ⟨n, hn⟩

/-- A search for a free bit sees the bits only. -/
lemma FirstFree.congr {w w' : Words} {bound : ℕ} (hbits : ∀ m, bit w' m = bit w m)
    (h : FirstFree w bound n) : FirstFree w' bound n := by
  have hsame : (fun m => !bit w' m) = fun m => !bit w m := funext fun m => by rw [hbits]
  rw [FirstFree, hsame]
  exact h

lemma FirstFree.clear {w : Words} {bound : ℕ} (h : FirstFree w bound n) : bit w n = false := by
  simpa using h.2.1

end Scans

theorem findObjectId_some (h : s.KeyAt key n) :
    findObjectId s key = ({ s with temp := some n }, objId s.objs n) := by
  rw [findObjectId, searchKey_some h]
  rfl

theorem findObjectId_none (h : s.NoKey key) : findObjectId s key = (s, -1) := by
  rw [findObjectId, searchKey_none h]

section Create

/-- A key that fits its field stays inside the mapping with its record. -/
lemma keyInObjs (hn : InObjs n) (hk : Fits key) : KeyInObjs n key := by
  have hlen : key.length ≤ 47 := hk
  have hin : 96 * n + 96 ≤ objectBlock * blockSize := hn
  rw [KeyInObjs, keyAddr]
  omega

/-- The store after `create_object` gave slot `n` to `key`. -/
def created (s : Store) (n : ℕ) (key : CString) : Store :=
  { s.markDirty n with
    objs := setKey (setId s.objs n (n + 2 : ℕ)) n key
    bitMapInode := setBit s.bitMapInode n }

theorem createObject_full (h : freeBits s.bitMapInode slotCount = ∅) :
    createObject s key = some (s, -1) := by
  rw [createObject, scan_full maxInodes h]

/-- The identifier is stored before the key, at a lower address, so that even a
long key leaves it alone. -/
lemma objId_created (hn : n < slotCount) :
    objId (setKey (setId s.objs n (n + 2 : ℕ)) n key) n = (n + 2 : ℕ) := by
  have hid : objId (setId s.objs n (n + 2 : ℕ)) n = (n + 2 : ℕ) := by
    rw [slotCount_eq] at hn
    rw [objId_setId (by omega), if_pos rfl]
  exact (loadInt_storeBytes (by simp only [keyAddr]; omega)).trans hid

theorem createObject_eq (h : FirstFree s.bitMapInode slotCount n) :
    createObject s key =
      if KeyInObjs n key then some (created s n key, ((n + 2 : ℕ) : ℤ)) else none := by
  rw [createObject, scan_free maxInodes h]
  simp only [foundAt_index, orWord_foundAt, show (foundAt n).cnt = n from rfl,
    objId_created h.1, created]

/-- All that `create_object` can do. -/
theorem create_cases {s' : Store} {r : ℤ} (h : createObject s key = some (s', r)) :
    (freeBits s.bitMapInode slotCount = ∅ ∧ s' = s ∧ r = -1) ∨
      ∃ n, FirstFree s.bitMapInode slotCount n ∧ KeyInObjs n key ∧ s' = created s n key ∧
        r = (n + 2 : ℕ) := by
  rcases (freeBits s.bitMapInode slotCount).eq_empty_or_nonempty with hfull | hfree
  · rw [createObject_full hfull] at h
    cases h
    exact Or.inl ⟨hfull, rfl, rfl⟩
  · obtain ⟨n, hn⟩ := exists_firstFree hfree
    rw [createObject_eq hn] at h
    split_ifs at h with hk
    cases h
    exact Or.inr ⟨n, hn, hk, rfl, rfl⟩

end Create

section Rename

/-- The store after `rename_object` renamed the object of slot `n`. -/
def renamed (s : Store) (n : ℕ) (newname : CString) : Store :=
  { s.markDirty n with objs := setKey s.objs n newname }

theorem renameObject_none (h : s.NoKey key) : renameObject s key key' = some (s, -1) := by
  rw [renameObject, searchKey_none h]

lemma objId_renamed : objId (renamed s n key).objs n = objId s.objs n :=
  loadInt_storeBytes (by simp only [keyAddr]; omega)

theorem renameObject_eq (h : s.KeyAt key n) :
    renameObject s key key' =
      if KeyInObjs n key' then some (renamed s n key', objId s.objs n) else none := by
  rw [renameObject, searchKey_some h]
  simp only [foundAt_index, show (foundAt n).cnt = n from rfl]
  split_ifs
  · have hid : objId (renamed s n key').objs n = objId s.objs n := objId_renamed
    rw [← hid, renamed]
  · rfl

/-- All that `rename_object` can do. -/
theorem rename_cases {s' : Store} {r : ℤ} (h : renameObject s key key' = some (s', r)) :
    (s.NoKey key ∧ s' = s ∧ r = -1) ∨
      ∃ n, s.KeyAt key n ∧ KeyInObjs n key' ∧ s' = renamed s n key' ∧ r = objId s.objs n := by
  rcases s.keyAt_or_noKey key with ⟨n, hn⟩ | hnone
  · rw [renameObject_eq hn] at h
    split_ifs at h with hk
    cases h
    exact Or.inr ⟨n, hn, hk, rfl, rfl⟩
  · rw [renameObject_none hnone] at h
    cases h
    exact Or.inl ⟨hnone, rfl, rfl⟩

end Rename

section Destroy

variable {build : Build}

/-- The record of slot `n` given up, its pointers still in place. -/
def unlinked (s : Store) (n : ℕ) : Store :=
  { s.markDirty n with
    bitMapInode := xorWord s.bitMapInode ((n / 32 : ℕ) : ℤ) (BitVec.twoPow 32 (n % 32))
    objs := setSize s.objs n 0 }

/-- The store after `destroy_object` destroyed the object of slot `n`. -/
def destroyed (build : Build) (s : Store) (n : ℕ) : Store :=
  (List.range 4).foldl (releaseIndirect build n)
    ((List.range 4).foldl (releaseDirect build n) (unlinked s n))

theorem destroyObject_none (h : s.NoKey key) : destroyObject build s key = some (s, -1) := by
  rw [destroyObject, searchKey_none h]

theorem destroyObject_eq (h : s.KeyAt key n) :
    destroyObject build s key = if InObjs n then some (destroyed build s n, 0) else none := by
  rw [destroyObject, searchKey_some h]
  simp only [foundAt_index]
  rfl

/-- All that `destroy_object` can do. -/
theorem destroy_cases {s' : Store} {r : ℤ} (h : destroyObject build s key = some (s', r)) :
    (s.NoKey key ∧ s' = s ∧ r = -1) ∨
      ∃ n, s.KeyAt key n ∧ InObjs n ∧ s' = destroyed build s n ∧ r = 0 := by
  rcases s.keyAt_or_noKey key with ⟨n, hn⟩ | hnone
  · rw [destroyObject_eq hn] at h
    split_ifs at h with hk
    rw [Option.some.injEq, Prod.mk.injEq] at h
    exact Or.inr ⟨n, hn, hk, h.1.symm, h.2.symm⟩
  · rw [destroyObject_none hnone] at h
    cases h
    exact Or.inl ⟨hnone, rfl, rfl⟩

end Destroy

section Exec

variable {build : Build} {s' : Store} {reply : Reply}

lemma map_reply {x : Option (Store × ℤ)}
    (h : (x.map fun r => (r.1, ({ ret := r.2 } : Reply))) = some (s', reply)) :
    ∃ r, x = some (s', r) ∧ reply = { ret := r } := by
  cases x with
  | none => contradiction
  | some y =>
    rw [Option.map_some, Option.some.injEq, Prod.mk.injEq] at h
    exact ⟨y.2, by rw [← h.1], h.2.symm⟩

lemma exec_create (h : exec build s (.create key) = some (s', reply)) :
    ∃ r, createObject s key = some (s', r) ∧ reply = { ret := r } := map_reply h

lemma exec_rename (h : exec build s (.rename key key') = some (s', reply)) :
    ∃ r, renameObject s key key' = some (s', r) ∧ reply = { ret := r } := map_reply h

lemma exec_destroy (h : exec build s (.destroy key) = some (s', reply)) :
    ∃ r, destroyObject build s key = some (s', r) ∧ reply = { ret := r } := map_reply h

lemma exec_write {objid : ℤ} {buf : Memory} {size offset : ℕ}
    (h : exec build s (.write objid buf size offset) = some (s', reply)) :
    ∃ r, objstoreWrite build s objid buf size offset = some (s', r) ∧ reply = { ret := r } :=
  map_reply h

end Exec

end OsAssignments
