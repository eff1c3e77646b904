import OsAssignments.Reading
import OsAssignments.WriteCases

/-!
# Handles of objects

`objstore_write` and `objstore_read` take any number from 2 on as the number of an
object. A number that belongs to no live object names a record all the same, and
what is written there is found by the object that is created in the slot later.
-/
namespace OsAssignments.Handles

open ByteMemory Bitmap ObjectTable Builds
open Machine (Along)

variable {build : Build} {s s' : Store} {n : ℕ}

/-- The number of a live object. -/
def LiveId (s : Store) (objid : ℤ) : Prop := ∃ n : ℕ, objid = n + 2 ∧ s.live n = true

/-- A call returns -1 and changes nothing. -/
def Refused (build : Build) (s : Store) (op : Op) : Prop :=
  exec build s op = some (s, { ret := -1 })

/-- The record of slot `n` has size 0 and no blocks. -/
def EmptyRecord (s : Store) (n : ℕ) : Prop :=
  objSize s.objs n = 0 ∧ ∀ j < 8, pointer s.objs n j = 0

/-- Reads and writes of a number without a live object are refused, and a new object
starts without contents. -/
def OnlyLive (build : Build) (s : Store) : Op → Prop
  | .write objid buf size offset =>
    ¬LiveId s objid → Refused build s (.write objid buf size offset)
  | .read objid size offset => ¬LiveId s objid → Refused build s (.read objid size offset)
  | .create key => ∀ s' n, exec build s (.create key) = some (s', { ret := (n + 2 : ℕ) }) →
      EmptyRecord s' n
  | _ => True

/-- Reads and writes get the number of a live object, or a reserved one. -/
def LiveHandle (s : Store) : Op → Prop
  | .write objid _ _ _ => objid < 2 ∨ LiveId s objid
  | .read objid _ _ => objid < 2 ∨ LiveId s objid
  | _ => True

/-- Names are at most 47 bytes long. -/
def NamesFit : Op → Prop
  | .create key => Fits key
  | .rename _ newname => Fits newname
  | _ => True

/-- The records of free slots are empty. -/
def CleanSlots (s : Store) : Prop := ∀ n, s.live n = false → EmptyRecord s n

section Refusal

/-- Only reserved numbers are refused by a read. -/
lemma read_refused_iff {objid : ℤ} {size offset : ℕ} :
    Refused build s (.read objid size offset) ↔ objid < 2 := by
  constructor
  · intro h
    obtain ⟨⟨s', r, bs⟩, hread, hreply⟩ := Option.map_eq_some_iff.mp h
    rw [Prod.mk.injEq, Reply.mk.injEq] at hreply
    rcases read_cases hread with ⟨hid, -, -, -⟩ | ⟨n, dev, -, -, -, hr⟩
    · exact hid
    · have hret : r = -1 := hreply.2.1
      omega
  · intro hid
    rw [Refused, exec, objstoreRead, if_pos hid]
    rfl

/-- Only reserved numbers are refused by a write. -/
lemma write_refused_iff {objid : ℤ} {buf : Memory} {size offset : ℕ} :
    Refused build s (.write objid buf size offset) ↔ objid < 2 := by
  constructor
  · intro h
    obtain ⟨r, hwrite, hreply⟩ := exec_write h
    rw [Reply.mk.injEq] at hreply
    rcases write_cases hwrite with ⟨hid, -, -⟩ | ⟨n, -, hin, ⟨-, hs, -⟩ | ⟨b, -, hr, -⟩⟩
    · exact hid
    · -- the lock that the failed search leaves held was free before
      have hheld : s.lockData = true := congrArg Store.lockData hs
      have hfree := hin.2.2.2
      rw [hheld] at hfree
      contradiction
    · omega
  · intro hid
    rw [Refused, exec, objstoreWrite_reserved hid]
    rfl

end Refusal

section Steps

lemma EmptyRecord.of_outside {i : ℕ} (h : EmptyRecord s i)
    (hrec : SameOutside n s.objs s'.objs) (hi : i ≠ n) : EmptyRecord s' i :=
  ⟨(hrec.objSize hi).trans h.1, fun j hj => (hrec.pointer hi hj).trans (h.2 j hj)⟩

/-- A change to the record of one slot, which is live or empty afterwards. -/
lemma CleanSlots.of_outside (h : CleanSlots s) (hrec : SameOutside n s.objs s'.objs)
    (hlives : ∀ i, i ≠ n → s'.live i = s.live i)
    (hself : s'.live n = false → EmptyRecord s' n) : CleanSlots s' := by
  intro i hi
  by_cases hin : i = n
  · subst hin
    exact hself hi
  · rw [hlives i hin] at hi
    exact (h i hi).of_outside hrec hin

variable {key : CString}

/-- A new object in a clean slot has no contents. -/
lemma created_empty (h : CleanSlots s) (hn : s.live n = false) (hk : Fits key) :
    EmptyRecord (created s n key) n := by
  obtain ⟨hsize, hptr⟩ := h n hn
  refine ⟨(objSize_created hk).trans hsize, fun j hj => ?_⟩
  rw [created, pointer_setKey hj hk, pointer_setId hj]
  exact hptr j hj

lemma written_clean {k z b : ℕ} {p : Block} (h : CleanSlots s) (hlive : s.live n = true)
    (hk : k < 4100) : CleanSlots (written build s n k z b p) := by
  have hframe := written_frame build s n k z b p
  have hlives : ∀ i, (written build s n k z b p).live i = s.live i := fun i => by
    rw [Store.live, hframe.inodes, Store.live]
  refine h.of_outside (n := n) (fun a ha => ?_) (fun i _ => hlives i) fun hdead => ?_
  · have hj := pointerOf_lt hk
    exact hframe.record a (by omega) (by omega)
  · rw [hlives, hlive] at hdead
    contradiction

lemma destroyed_clean (h : CleanSlots s) (n : ℕ) : CleanSlots (destroyed build s n) := by
  have ht := destroyed_table build s n
  have hempty := clearRecord_empty s.objs n
  refine h.of_outside (n := n) ?_ (fun i hi => ?_) fun _ => ?_
  · rw [ht.objs]
    exact sameOutside_clearRecord s.objs
  · rw [Store.live, ht.inodes, unlinked, bit_xorWord, decide_eq_false (Ne.symm hi), Bool.xor_false,
      Store.live]
  · rw [EmptyRecord, ht.objs]
    exact hempty

lemma step_clean {op : Op} {reply : Reply} (h : CleanSlots s) (hfit : NamesFit op)
    (hlive : LiveHandle s op) (hexec : exec build s op = some (s', reply)) : CleanSlots s' := by
  cases op with
  | create key =>
    obtain ⟨r, hcreate, -⟩ := exec_create hexec
    rcases create_cases hcreate with ⟨-, rfl, -⟩ | ⟨n, hn, -, rfl, -⟩
    · exact h
    · refine h.of_outside (created_touches s hfit).objs (fun i hi => ?_) fun _ => ?_
      · rw [live_created, decide_eq_false (Ne.symm hi), Bool.or_false]
      · exact created_empty h hn.clear hfit
  | rename key newname =>
    obtain ⟨r, hrename, -⟩ := exec_rename hexec
    rcases rename_cases hrename with ⟨-, rfl, -⟩ | ⟨n, hn, -, rfl, -⟩
    · exact h
    · refine h.of_outside (renamed_touches s hfit).objs (fun _ _ => rfl) fun hdead => ?_
      have hlives : s.live n = false := hdead
      rw [hn.live] at hlives
      contradiction
  | destroy key =>
    obtain ⟨r, hdestroy, -⟩ := exec_destroy hexec
    rcases destroy_cases hdestroy with ⟨-, rfl, -⟩ | ⟨n, hn, -, hs', -⟩
    · exact h
    · rw [hs']
      exact destroyed_clean h n
  | write objid buf size offset =>
    obtain ⟨r, hwrite, -⟩ := exec_write hexec
    rcases write_cases hwrite with ⟨-, rfl, -⟩ | ⟨n, rfl, hin, ⟨-, rfl, -⟩ | ⟨b, -, -, hs'⟩⟩
    · exact h
    · exact h
    · rcases hlive with hid | ⟨m, hm, hmlive⟩
      · omega
      · obtain rfl : n = m := by omega
        rw [hs']
        exact written_clean h hmlive hin.2.2.1
  | read objid size offset =>
    obtain ⟨⟨s₁, r, bs⟩, hread, hreply⟩ := Option.map_eq_some_iff.mp hexec
    rw [Prod.mk.injEq] at hreply
    rcases read_cases hread with ⟨-, hs, -, -⟩ | ⟨n, dev, -, -, hs, -⟩
    · rw [← hreply.1, hs]
      exact h
    · rw [← hreply.1, hs]
      exact h
  | find key =>
    rw [exec, Option.some.injEq, Prod.mk.injEq] at hexec
    rw [← hexec.1, findObjectId]
    split <;> exact h
  | stat ino =>
    rw [exec] at hexec
    split at hexec <;>
    · rw [Option.some.injEq, Prod.mk.injEq] at hexec
      rw [← hexec.1]
      exact h

/-- A call keeps to live objects exactly when its handle does. -/
lemma onlyLive_iff {op : Op} (h : CleanSlots s) (hfit : NamesFit op) :
    OnlyLive build s op ↔ LiveHandle s op := by
  cases op with
  | create key =>
    refine ⟨fun _ => trivial, fun _ s' n hexec => ?_⟩
    obtain ⟨r, hcreate, hreply⟩ := exec_create hexec
    rw [Reply.mk.injEq] at hreply
    rcases create_cases hcreate with ⟨-, -, hr⟩ | ⟨m, hm, -, hs', hr⟩
    · omega
    · obtain rfl : n = m := by omega
      rw [hs']
      exact created_empty h hm.clear hfit
  | rename key newname => exact Iff.rfl
  | destroy key => exact Iff.rfl
  | write objid buf size offset =>
    rw [OnlyLive, LiveHandle, write_refused_iff, or_comm, or_iff_not_imp_left]
  | read objid size offset =>
    rw [OnlyLive, LiveHandle, read_refused_iff, or_comm, or_iff_not_imp_left]
  | find key => exact Iff.rfl
  | stat ino => exact Iff.rfl

end Steps

lemma empty_clean {d : Device} (hs : Empty d s) : CleanSlots s :=
  fun n _ => ⟨by rw [hs.objs]; exact loadInt_of_zero fun _ _ => rfl, fun j _ => hs.pointer n j⟩

/-- In every run whose names fit, dead handles are refused and new objects are empty
if and only if no read or write is given a dead handle. -/
theorem only_live_iff (build : Build) (d : Device) (hd : Blank d) (ops : List Op)
    (hops : ∀ op ∈ ops, NamesFit op) :
    Along (exec build) (OnlyLive build) (objstoreInit d) ops ↔
      Along (exec build) LiveHandle (objstoreInit d) ops :=
  Along.congr (D := NamesFit) (I := CleanSlots) (fun _ _ hs hfit => onlyLive_iff hs hfit)
    (fun _ _ _ _ hs hfit hlive hexec => step_clean hs hfit hlive hexec)
    (empty_clean (objstoreInit_empty hd)) hops

/-- An object is created, read and destroyed. -/
theorem only_live_iff_created : Along (exec .objfs) (OnlyLive .objfs) (objstoreInit blankDevice)
    [.create keyA, .read ((0 : ℕ) + 2) blockSize 0, .destroy keyA] := by
  have hempty := objstoreInit_empty blankDevice_blank
  refine (only_live_iff .objfs blankDevice blankDevice_blank _ fun op hop => ?_).mpr
    ⟨trivial, fun s r hcreate => ⟨?_, fun _ _ _ => ⟨trivial, fun _ _ _ => trivial⟩⟩⟩
  · have hfits : Fits keyA := by decide
    simp only [List.mem_cons, List.not_mem_nil, or_false] at hop
    rcases hop with rfl | rfl | rfl
    · exact hfits
    · trivial
    · trivial
  · rw [hempty.create (by decide), Option.some.injEq, Prod.mk.injEq] at hcreate
    rw [← hcreate.1]
    exact Or.inr ⟨0, rfl, by simp [live_created]⟩

/-- A number that was never given out is read like that of an object. -/
theorem dead_handle_read : ¬∀ ops, (∀ op ∈ ops, NamesFit op) →
    Along (exec .objfs) (OnlyLive .objfs) (objstoreInit blankDevice) ops := by
  intro hclaim
  have hempty := objstoreInit_empty blankDevice_blank
  have hdead : ¬LiveId (objstoreInit blankDevice) 2 := by
    rintro ⟨n, -, hlive⟩
    rw [hempty.live] at hlive
    contradiction
  have hrun := hclaim [.read 2 blockSize 0] fun op hop => by
    rw [List.mem_singleton] at hop
    subst hop
    trivial
  exact absurd (read_refused_iff.mp (hrun.1 hdead)) (by norm_num)

end OsAssignments.Handles
