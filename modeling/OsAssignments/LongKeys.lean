import OsAssignments.BlockAccounting

/-!
# Keys longer than their field

A record has 48 bytes for its key, and `strcpy` stores as many as there are. What
does not fit goes into the block pointers of the record and on into the next one. The
call does no harm when those bytes are there already; and the record is found by its
name as long as no record before it has the same.
-/
namespace OsAssignments.LongKeys

open ByteMemory Bitmap ObjectTable
open BlockAccounting (longKey)

variable {s s' : Store} {n m : ℕ} {key key' newname : CString} {objs : Memory}

/-- `find_object_id` of the key stops at slot `n`. -/
def FoundBy (s : Store) (n : ℕ) (key : CString) : Prop := ∃ f, searchKey s key = some f ∧ f.cnt = n

/-- The tables agree outside the id and the key field of record `n`. -/
def IdOrKey (n : ℕ) (m m' : Memory) : Prop :=
  ∀ a, a < 96 * n ∨ 96 * n + 8 ≤ a → a < 96 * n + 16 ∨ 96 * n + 64 ≤ a → m' a = m a

/-- From `s` to `s'` slot `n` got the name `key`: nothing but its id, its key field, its
inode bit and its mark changed, and it is found by that name only. -/
structure Stored (s s' : Store) (n : ℕ) (key : CString) : Prop where
  record : IdOrKey n s.objs s'.objs
  inodes : ∀ m, m ≠ n → bit s'.bitMapInode m = bit s.bitMapInode m
  rest : s' = { s.markDirty n with objs := s'.objs, bitMapInode := s'.bitMapInode }
  found : ∀ key', FoundBy s' n key' ↔ key' = key

def CreateHandled (s : Store) (key : CString) : Prop :=
  createObject s key = some (s, -1) ∨
    ∃ s' n, createObject s key = some (s', ((n + 2 : ℕ) : ℤ)) ∧ Stored s s' n key

def RenameHandled (s : Store) (key newname : CString) : Prop :=
  renameObject s key newname = some (s, -1) ∨
    ∃ s' n r, renameObject s key newname = some (s', r) ∧ s.KeyAt key n ∧ Stored s s' n newname

/-- What `strcpy` puts behind the key field of record `n` is there already. -/
def Overlaid (objs : Memory) (n : ℕ) (key : CString) : Prop :=
  ∀ i, 48 ≤ i → i ≤ key.length → objs (keyAddr n + i) = key.char i

/-- No live record before record `n` has the name, unless the name is so long that it
runs on into record `n`. -/
def Unclaimed (s : Store) (objs : Memory) (n : ℕ) (key : CString) : Prop :=
  ∀ m < n, s.live m = true → keyIs objs m key = true → 96 * (n - m) ≤ key.length

/-- Slot `n` can take the name `key`, in the table `objs`. -/
structure Takes (s : Store) (objs : Memory) (n : ℕ) (key : CString) : Prop where
  inside : KeyInObjs n key
  overlaid : Overlaid s.objs n key
  unclaimed : Unclaimed s objs n key

lemma overlaid_of_fits (h : Fits key) : Overlaid objs n key := by
  intro i hi hi'
  have hlen : key.length ≤ 47 := h
  omega

lemma foundBy_iff : FoundBy s n key ↔ s.KeyAt key n := by
  constructor
  · rintro ⟨f, hf, rfl⟩
    rcases s.keyAt_or_noKey key with ⟨m, hm⟩ | hnone
    · rw [searchKey_some hm, Option.some.injEq] at hf
      rw [← hf]
      exact hm
    · rw [searchKey_none hnone] at hf
      contradiction
  · exact fun h => ⟨foundAt n, searchKey_some h, rfl⟩

/-- A record before the one whose key was stored. -/
lemma keyIs_setKey_below (hm : m < n) :
    keyIs (setKey objs n key) m key = true ↔
      keyIs objs m key = true ∧ key.length < 96 * (n - m) := by
  have hsame : key.length < 96 * (n - m) →
      keyIs (setKey objs n key) m key = keyIs objs m key := fun hlt =>
    strcmpEq_storeBytes (by simp only [keyAddr]; omega)
  refine ⟨fun h => ?_, fun h => by rw [hsame h.2, h.1]⟩
  have hlt : key.length < 96 * (n - m) := by
    by_contra hlong
    -- the terminator of the first key would be a character of the second
    have hend := (strcmpEq_iff _ _ _).mp h key.length le_rfl
    have haddr : keyAddr m + key.length = keyAddr n + (key.length - 96 * (n - m)) := by
      simp only [keyAddr]
      omega
    rw [setKey, strcpy, haddr, storeBytes_add (by omega), key.char_length] at hend
    exact key.char_ne_zero (by omega) hend
  exact ⟨hsame hlt ▸ h, hlt⟩

/-- The copy stays in the key field exactly when the rest is there already. -/
lemma idOrKey_iff (h : IdOrKey n s.objs objs) :
    IdOrKey n s.objs (setKey objs n key) ↔ Overlaid s.objs n key := by
  constructor
  · intro hrecord i hi hi'
    have haddr : 96 * n + 64 ≤ keyAddr n + i := by
      unfold keyAddr
      omega
    rw [← hrecord (keyAddr n + i) (by omega) (by omega), setKey, strcpy, storeBytes_add (by omega)]
  · intro hover a ha hb
    by_cases hin : keyAddr n ≤ a ∧ a < keyAddr n + (key.length + 1)
    · have hi : 48 ≤ a - keyAddr n := by
        have hlo := hin.1
        unfold keyAddr at hlo ⊢
        omega
      have hbyte := hover (a - keyAddr n) hi (by omega)
      rw [Nat.add_sub_cancel' hin.1] at hbyte
      rw [setKey, strcpy, storeBytes_of_mem hin, hbyte]
    · rw [setKey, strcpy, storeBytes_of_not_mem (by omega)]
      exact h a ha hb

/-- The record is found by its new name exactly when no record before it has it. -/
lemma found_iff (hslot : n < slotCount) (hlive : s'.live n = true)
    (hlives : ∀ m < n, s'.live m = s.live m) (hobjs : s'.objs = setKey objs n key) :
    (∀ key', FoundBy s' n key' ↔ key' = key) ↔ Unclaimed s objs n key := by
  have hself : ∀ key', s'.named key' n = true ↔ key = key' := fun key' => by
    rw [named_iff, hobjs, keyIs_setKey_self]
    simp [hlive]
  have hbelow : ∀ m < n, s'.named key m = true ↔
      s.live m = true ∧ keyIs objs m key = true ∧ key.length < 96 * (n - m) := fun m hm => by
    rw [named_iff, hobjs, hlives m hm, keyIs_setKey_below hm]
  constructor
  · intro hfound m hm hmlive hmkey
    by_contra hlt
    have hat := foundBy_iff.mp ((hfound key).mpr rfl)
    have hnot := hat.2.2 m hm
    rw [(hbelow m hm).mpr ⟨hmlive, hmkey, not_le.mp hlt⟩] at hnot
    contradiction
  · intro hunclaimed key'
    rw [foundBy_iff]
    constructor
    · exact fun hat => ((hself key').mp hat.2.1).symm
    · rintro rfl
      refine ⟨hslot, (hself key').mpr rfl, fun m hm => ?_⟩
      by_contra hnamed
      obtain ⟨hmlive, hmkey, hlt⟩ := (hbelow m hm).mp (by simpa using hnamed)
      exact absurd (hunclaimed m hm hmlive hmkey) (not_le.mpr hlt)

section Calls

lemma setId_idOrKey (m : Memory) (n : ℕ) (v : ℤ) : IdOrKey n m (setId m n v) :=
  fun _ ha _ => storeBytes_of_not_mem ha

/-- The new object of slot `n`. -/
lemma created_stored_iff (hn : FirstFree s.bitMapInode slotCount n) :
    Stored s (created s n key) n key ↔
      Overlaid s.objs n key ∧ Unclaimed s (setId s.objs n (n + 2 : ℕ)) n key := by
  have hrecord : IdOrKey n s.objs (created s n key).objs ↔ _ :=
    idOrKey_iff (setId_idOrKey s.objs n (n + 2 : ℕ))
  have hfound : (∀ key', FoundBy (created s n key) n key' ↔ key' = key) ↔ Unclaimed s _ n key :=
    found_iff hn.1 (by simp [live_created]) (fun m hm => by simp [live_created, hm.ne']) rfl
  have hinodes : ∀ m, m ≠ n → bit (created s n key).bitMapInode m = bit s.bitMapInode m :=
    fun m hm => by
      have hlives : (created s n key).live m = _ := live_created
      rwa [decide_eq_false (Ne.symm hm), Bool.or_false] at hlives
  exact ⟨fun h => ⟨hrecord.mp h.record, hfound.mp h.found⟩,
    fun h => ⟨hrecord.mpr h.1, hinodes, rfl, hfound.mpr h.2⟩⟩

lemma renamed_stored_iff (hn : s.KeyAt key n) :
    Stored s (renamed s n newname) n newname ↔
      Overlaid s.objs n newname ∧ Unclaimed s s.objs n newname := by
  have hrecord : IdOrKey n s.objs (renamed s n newname).objs ↔ _ :=
    idOrKey_iff (fun a _ _ => rfl : IdOrKey n s.objs s.objs)
  have hfound : (∀ key', FoundBy (renamed s n newname) n key' ↔ key' = newname) ↔
      Unclaimed s _ n newname := found_iff hn.1 hn.live (fun _ _ => rfl) rfl
  exact ⟨fun h => ⟨hrecord.mp h.record, hfound.mp h.found⟩,
    fun h => ⟨hrecord.mpr h.1, fun _ _ => rfl, rfl, hfound.mpr h.2⟩⟩

lemma create_handled_iff : CreateHandled s key ↔
    freeBits s.bitMapInode slotCount = ∅ ∨ ∃ n, FirstFree s.bitMapInode slotCount n ∧
      Takes s (setId s.objs n (n + 2 : ℕ)) n key := by
  constructor
  · rintro (hfail | ⟨s', n, hcreate, hstored⟩)
    · rcases create_cases hfail with ⟨hfull, -, -⟩ | ⟨n, -, -, -, hr⟩
      · exact Or.inl hfull
      · omega
    · rcases create_cases hcreate with ⟨hfull, -, -⟩ | ⟨m, hm, hin, hs', hr⟩
      · exact Or.inl hfull
      · obtain rfl : n = m := by omega
        rw [hs'] at hstored
        obtain ⟨hover, hunclaimed⟩ := (created_stored_iff hm).mp hstored
        exact Or.inr ⟨n, hm, hin, hover, hunclaimed⟩
  · rintro (hfull | ⟨n, hn, htakes⟩)
    · exact Or.inl (createObject_full hfull)
    · refine Or.inr ⟨created s n key, n, ?_, (created_stored_iff hn).mpr
        ⟨htakes.overlaid, htakes.unclaimed⟩⟩
      rw [createObject_eq hn, if_pos htakes.inside]

/-- A rename that changes nothing stored the name as well. -/
lemma stored_of_same (hn : s.KeyAt key n) (hsame : renamed s n newname = s) :
    Stored s (renamed s n newname) n newname := by
  have hkey : newname = key := by
    have hself : keyIs (renamed s n newname).objs n newname = true := keyIs_setKey_self.mpr rfl
    rw [hsame] at hself
    exact keyIs_inj hself hn.keyIs
  refine ⟨by rw [hsame]; exact fun _ _ _ => rfl, fun _ _ => rfl, rfl, fun key' => ?_⟩
  rw [hsame, foundBy_iff, hkey]
  exact ⟨fun hat => keyIs_inj hat.keyIs hn.keyIs, fun he => he ▸ hn⟩

lemma rename_handled_iff : RenameHandled s key newname ↔
    s.NoKey key ∨ ∃ n, s.KeyAt key n ∧ Takes s s.objs n newname := by
  have htakes : ∀ n, s.KeyAt key n → KeyInObjs n newname →
      Stored s (renamed s n newname) n newname → Takes s s.objs n newname := by
    intro n hn hin hstored
    obtain ⟨hover, hunclaimed⟩ := (renamed_stored_iff hn).mp hstored
    exact ⟨hin, hover, hunclaimed⟩
  constructor
  · rintro (hfail | ⟨s', n, r, hrename, hn, hstored⟩)
    · rcases rename_cases hfail with ⟨hnone, -, -⟩ | ⟨n, hn, hin, hs', -⟩
      · exact Or.inl hnone
      · exact Or.inr ⟨n, hn, htakes n hn hin (stored_of_same hn hs'.symm)⟩
    · rcases rename_cases hrename with ⟨hnone, -, -⟩ | ⟨m, hm, hin, hs', -⟩
      · exact Or.inl hnone
      · rw [hm.unique hn] at hin hs'
        rw [hs'] at hstored
        exact Or.inr ⟨n, hn, htakes n hn hin hstored⟩
  · rintro (hnone | ⟨n, hn, htakes⟩)
    · exact Or.inl (renameObject_none hnone)
    · refine Or.inr ⟨renamed s n newname, n, objId s.objs n, ?_, hn, (renamed_stored_iff hn).mpr
        ⟨htakes.overlaid, htakes.unclaimed⟩⟩
      rw [renameObject_eq hn, if_pos htakes.inside]

end Calls

/-- A new name of at most 47 bytes is stored without harm. -/
theorem create_handled_of_fits (hn : FirstFree s.bitMapInode slotCount n) (hin : InObjs n)
    (hk : Fits key) (hnew : ∀ m < n, s.named key m = false) : CreateHandled s key := by
  refine create_handled_iff.mpr (Or.inr ⟨n, hn, keyInObjs hin hk, overlaid_of_fits hk,
    fun m hm hlive hkey => ?_⟩)
  rw [keyIs_setId hk] at hkey
  have hnamed := hnew m hm
  rw [named_iff.mpr ⟨hlive, hkey⟩] at hnamed
  contradiction

/-- When `create_object` and `rename_object` store a name without harm. -/
theorem keys_handled_iff (s : Store) (key newname : CString) :
    (CreateHandled s key ↔
      freeBits s.bitMapInode slotCount = ∅ ∨ ∃ n, FirstFree s.bitMapInode slotCount n ∧
        Takes s (setId s.objs n (n + 2 : ℕ)) n key) ∧
    (RenameHandled s key newname ↔
      s.NoKey key ∨ ∃ n, s.KeyAt key n ∧ Takes s s.objs n newname) :=
  ⟨create_handled_iff, rename_handled_iff⟩

/-- A key of 49 bytes changes `direct[0]` of a new object. -/
theorem long_key_runs_on : ¬∀ key : CString, key.length ≤ 255 →
    CreateHandled (objstoreInit blankDevice) key := by
  intro hclaim
  have hempty := objstoreInit_empty blankDevice_blank
  rcases create_handled_iff.mp (hclaim longKey (by decide)) with hfull | ⟨n, -, htakes⟩
  · have hcard := hempty.firstSlot.1
    have hmem : 0 ∈ freeBits (objstoreInit blankDevice).bitMapInode slotCount := by
      rw [mem_freeBits]
      exact ⟨hcard, hempty.live 0⟩
    rw [hfull] at hmem
    exact absurd hmem (Finset.notMem_empty 0)
  · have hbyte := htakes.overlaid 48 le_rfl (by decide)
    rw [hempty.objs] at hbyte
    have hchar : longKey.char 48 ≠ 0 := by decide
    exact hchar hbyte.symm

end OsAssignments.LongKeys
