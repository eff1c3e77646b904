import OsAssignments.Destroying
import OsAssignments.Mounting
import OsAssignments.Writing

/-!
# Runs of the object store

The store a mount of an all-zero disk gives meets the invariant, and every call
that stays inside the key field keeps it. What the single calls do to slots, names
and references is collected here for the properties of whole runs.
-/
namespace OsAssignments

open ByteMemory Bitmap ObjectTable Builds

variable {build : Build} {strict : Prop} {s s' : Store} {n m : ℕ} {key key' : CString}

section Blank

/-- A disk image of zeros, whose transfers succeed. -/
structure Blank (d : Device) : Prop where
  healthy : d.disk.Healthy
  zero : ∀ p, d.disk.image p = fun _ => 0

/-- The key "a". -/
def keyA : CString := ⟨[97], by simp⟩

/-- The key "b". -/
def keyB : CString := ⟨[98], by simp⟩

theorem blankDevice_blank : Blank blankDevice := ⟨fun _ => rfl, fun _ => rfl⟩

lemma bytes_zero : bytes (fun _ => 0) = fun _ => 0 := by
  funext i
  simp only [bytes]
  split_ifs <;> rfl

variable {d : Device}

/-- The first mount finds nothing. -/
structure Empty (d : Device) (s : Store) : Prop where
  dev : ∃ disk : Disk, s.dev = BlockCache.initCache { d with disk := disk } ∧ Blank { d with disk }
  objs : s.objs = fun _ => 0
  inodes : s.bitMapInode = fun _ => 0#32
  data : s.bitMapData = fun _ => 0#32
  dirty : s.dBitMap = fun _ => false
  temp : s.temp = none
  lock : s.lockData = false

theorem objstoreInit_empty (h : Blank d) : Empty d (objstoreInit d) := by
  have hm := objstoreInit_mounted h.healthy
  have hword : ∀ start k, bitmapWord d.disk.image start k = fun _ => 0#32 := by
    intro start k
    funext w
    unfold bitmapWord
    split_ifs
    · rw [blockWord, h.zero, bytes_zero, loadLE_zero]
    · rfl
  obtain ⟨disk, hdev, hh, himage⟩ := hm.dev
  refine ⟨⟨disk, hdev, hh, fun p => ?_⟩, ?_, ?_, ?_, hm.dirty, hm.temp, hm.lock⟩
  · show disk.image p = _
    rw [himage, h.zero]
  · rw [hm.objs]
    funext a
    unfold tableByte
    split_ifs
    · rw [h.zero, bytes_zero]
    · rfl
  · rw [hm.inodes, hword]
  · rw [hm.data, hword]

namespace Empty

lemma live (h : Empty d s) (n : ℕ) : s.live n = false := by
  rw [Store.live, h.inodes, bit, BitVec.getLsbD_zero]

lemma used (h : Empty d s) (n : ℕ) : bit s.bitMapData n = false := by
  rw [h.data, bit, BitVec.getLsbD_zero]

lemma pointer (h : Empty d s) (n j : ℕ) : pointer s.objs n j = 0 := by
  rw [h.objs]
  exact loadInt_of_zero fun _ _ => rfl

lemma value (h : Empty d s) (build : Build) (r : Ref) : value build s r = 0 := by
  cases r with
  | pointer n j => exact h.pointer n j
  | entry n l e => exact if_pos (h.pointer n (4 + l))

lemma firstSlot (h : Empty d s) : FirstFree s.bitMapInode slotCount 0 :=
  ⟨by decide, by simpa [Store.live] using h.live 0, fun k hk => by omega⟩

lemma free (h : Empty d s) : (freeBits s.bitMapData dataBits).card = dataBits := by
  have hall : freeBits s.bitMapData dataBits = Finset.range dataBits := by
    ext k
    simp [h.used k]
  rw [hall, Finset.card_range]

/-- The first object goes to the first slot. -/
lemma create (h : Empty d s) (hk : KeyInObjs 0 key) :
    exec build s (.create key) = some (created s 0 key, { ret := 2 }) := by
  rw [exec, createObject_eq h.firstSlot, if_pos hk]
  rfl

theorem ok (h : Empty d s) : StoreOk build strict s := by
  obtain ⟨disk, hdev, hblank⟩ := h.dev
  have hnone : ∀ r, owner (OsAssignments.value build s) r = none :=
    fun r => owner_zero (h.value build r)
  refine ⟨?_, ⟨fun r hr => absurd (h.value build r) hr, ⟨fun r r' b hr _ => ?_, fun r b hr => ?_,
    fun _ b hb => ?_⟩⟩, fun n _ => ⟨?_, fun j _ => h.pointer n j⟩, fun n hn => ?_, fun n hn => ?_⟩
  · rw [hdev]
    exact init_ok hblank.healthy
  · rw [hnone] at hr
    contradiction
  · rw [hnone] at hr
    contradiction
  · rw [h.used] at hb
    contradiction
  · rw [h.objs]
    exact loadInt_of_zero fun _ _ => rfl
  · rw [h.live] at hn
    contradiction
  · rw [h.live] at hn
    contradiction

end Empty

end Blank

section Naming

lemma value_created (hk : Fits key) : value build (created s n key) = value build s := by
  refine value_congr (fun i j hj => ?_) fun _ _ _ _ => rfl
  rw [created, pointer_setKey hj hk, pointer_setId hj]

lemma live_created : (created s n key).live m = (s.live m || decide (n = m)) :=
  bit_setBit s.bitMapInode n m

lemma objSize_created (hk : Fits key) : objSize (created s n key).objs m = objSize s.objs m := by
  rw [created, objSize_setKey hk, objSize_setId]

theorem created_ok (h : StoreOk build strict s) (hn : n < slotCount) (hk : Fits key) :
    StoreOk build strict (created s n key) := by
  refine ⟨h.device, ?_, fun m hm => ?_, fun m hm => ?_, fun m hm => ?_⟩
  · rw [value_created hk]
    exact h.accounts
  · rw [live_created, Bool.or_eq_false_iff] at hm
    obtain ⟨hz, hp⟩ := h.clean m hm.1
    refine ⟨(objSize_created hk).trans hz, fun j hj => ?_⟩
    rw [created, pointer_setKey hj hk, pointer_setId hj]
    exact hp j hj
  · by_cases hmn : n = m
    · subst hmn
      have hid : objId (created s n key).objs n = (n + 2 : ℕ) := objId_created hn
      exact_mod_cast hid
    · rw [live_created, decide_eq_false hmn, Bool.or_false] at hm
      have hlt : -2 ^ 63 ≤ ((n + 2 : ℕ) : ℤ) ∧ ((n + 2 : ℕ) : ℤ) < 2 ^ 63 := by
        rw [slotCount_eq] at hn
        omega
      rw [created, objId_setKey hk, objId_setId hlt, if_neg hmn]
      exact h.ids m hm
  · rw [live_created, Bool.or_eq_true, decide_eq_true_eq] at hm
    rcases hm with hm | rfl
    · exact h.slots m hm
    · exact hn

lemma keyIs_created_ne (hk : Fits key) (hk' : Fits key') (hm : n ≠ m) :
    keyIs (created s n key).objs m key' = keyIs s.objs m key' := by
  rw [created, keyIs_setKey_ne hk hk' hm, keyIs_setId hk']

lemma value_renamed (hk : Fits key) : value build (renamed s n key) = value build s :=
  value_congr (fun _ _ hj => pointer_setKey hj hk) fun _ _ _ _ => rfl

theorem renamed_ok (h : StoreOk build strict s) (hk : Fits key) :
    StoreOk build strict (renamed s n key) := by
  refine ⟨h.device, ?_, fun m hm => ?_, fun m hm => ?_, h.slots⟩
  · rw [value_renamed hk]
    exact h.accounts
  · obtain ⟨hz, hp⟩ := h.clean m hm
    exact ⟨(objSize_setKey hk).trans hz, fun j hj => (pointer_setKey hj hk).trans (hp j hj)⟩
  · exact (objId_setKey hk).trans (h.ids m hm)

end Naming

section First

variable {d : Device} {k : ℕ}

namespace Empty

/-- The first object of an empty store takes data block 0, and block 1 where an
indirect block is needed. -/
lemma picks (h : Empty d s) (k : ℕ) : Picks (created s 0 key) 0 k 0 1 := by
  have hused : ∀ m, bit (created s 0 key).bitMapData m = false := h.used
  have hfirst : FirstFree (created s 0 key).bitMapData dataBits 0 :=
    ⟨by decide, by simpa using hused 0, fun m hm => by omega⟩
  refine ⟨hfirst, fun _ => ⟨by decide, ?_, fun m hm => ?_⟩⟩
  · simp [hused]
  · have hm0 : m = 0 := by omega
    simp [hm0]

lemma createdOk (h : Empty d s) (hk : Fits key) : StoreOk build strict (created s 0 key) :=
  created_ok h.ok h.firstSlot.1 hk

lemma createdValue (h : Empty d s) (hk : Fits key) (r : Ref) :
    OsAssignments.value build (created s 0 key) r = 0 := by
  rw [value_created hk, h.value]

lemma createdFree (h : Empty d s) :
    (freeBits (created s 0 key).bitMapData dataBits).card = dataBits := h.free

/-- There is room for any first write. -/
lemma createdRoom (h : Empty d s) : 2 ≤ (freeBits (created s 0 key).bitMapData dataBits).card := by
  rw [h.createdFree, dataBits_eq]
  norm_num

lemma createdCost (h : Empty d s) (n k : ℕ) : writeCost (created s 0 key) n k ≤
    (freeBits (created s 0 key).bitMapData dataBits).card :=
  (writeCost_le _ n k).trans h.createdRoom

/-- The first write to the first object. -/
lemma write (build : Build) (h : Empty d s) (hk : Fits key) (hk' : k < 4100) (buf : Memory) :
    exec build (created s 0 key) (.write ((0 : ℕ) + 2) buf blockSize (blockSize * k)) =
      some (hung build (created s 0 key) 0 k blockSize 0 1 (bufferPage buf blockSize),
        { ret := blockSize }) := by
  have hdiv : blockSize * k / blockSize = k := Nat.mul_div_cancel_left k (by norm_num)
  have hok : StoreOk build True (created s 0 key) := h.createdOk hk
  have hwrite : objstoreWrite build (created s 0 key) ((0 : ℕ) + 2) buf blockSize
      (blockSize * k) = _ :=
    objstoreWrite_hung hok ⟨le_rfl, by decide, by rwa [hdiv], h.lock⟩ (h.createdValue hk _)
      (h.picks _)
  rw [hdiv] at hwrite
  simp only [exec, hwrite, Option.map_some]

end Empty

/-- Two objects without blocks. -/
def twoObjects : Store := created (created (objstoreInit blankDevice) 0 keyA) 1 keyB

lemma twoObjects_ok : StoreOk build strict twoObjects := by
  have hempty := objstoreInit_empty blankDevice_blank
  exact created_ok (hempty.createdOk (by decide)) (by decide) (by decide)

lemma twoObjects_live (n : ℕ) : twoObjects.live n = true ↔ n = 0 ∨ n = 1 := by
  have hempty := objstoreInit_empty blankDevice_blank
  rw [twoObjects, live_created, live_created, hempty.live, Bool.false_or, Bool.or_eq_true,
    decide_eq_true_eq, decide_eq_true_eq]
  omega

lemma twoObjects_free : (freeBits twoObjects.bitMapData dataBits).card = dataBits :=
  (objstoreInit_empty blankDevice_blank).free

end First

end OsAssignments
