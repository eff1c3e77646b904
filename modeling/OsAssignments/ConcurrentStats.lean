import OsAssignments.Interleaving
import OsAssignments.Names

/-!
# Concurrent getattr requests

`objfs_getattr` calls `find_object_id` and then `fillup_size_details`, which looks at the
record found last, whoever looked for it. A request is answered as if it were alone exactly
when no other object was found between its two steps.
-/
namespace OsAssignments.ConcurrentStats

open ByteMemory Bitmap ObjectTable Interleaving
open Machine (Along along_append)

/-- `ROOT_OBJID`. -/
def rootObjid : ℕ := 1

/-- Where a request stands. A reply has `st_ino`, with `st_size` and `st_blocks` where they
differ from the defaults; a failure has the negative error number. -/
inductive Request
  | start
  | found (ino : ℕ)
  | replied (ino : ℕ) (details : Option (ℤ × ℤ))
  | failed (ret : ℤ)
  deriving DecidableEq

variable {ι : Type*}

section Steps

variable (keys : ι → CString)

/-- The next step of the request for the path `/key`; `retval` is an `int`. -/
def act (i : ι) (s : Store) : Request → Option (Store × Request)
  | .start =>
    if (keys i).bytes = [] then some (s, .replied rootObjid none)
    else
      let r := findObjectId s (keys i)
      let retval := r.2.bmod (2 ^ 32)
      if retval < 0 then some (r.1, .failed (-2)) else some (r.1, .found retval.toNat)
  | .found ino =>
    match fillupSizeDetails s ino with
    | some details => some (s, .replied ino (some details))
    | none => some (s, .failed (-9))
  | .replied _ _ => none
  | .failed _ => none

/-- `st_blocks` of an object of `size` bytes. -/
def blocks (size : ℤ) : ℤ := if size / 2 ^ 9 * 2 ^ 9 ≠ size then size / 2 ^ 9 + 1 else size / 2 ^ 9

/-- The number, size and blocks of the object in slot `n`. -/
def ownStat (s : Store) (n : ℕ) : Request :=
  .replied (n + 2) (some (objSize s.objs n, blocks (objSize s.objs n)))

variable (slot : ι → ℕ) (s : Store)

/-- The step succeeds, and a reply is that of the object of the key. -/
def Right (i : ι) (u : Store) : Request → Prop
  | .start => ∃ u' ino, act keys i u .start = some (u', .found ino)
  | .found ino => ∃ u', act keys i u (.found ino) = some (u', ownStat s (slot i))
  | _ => True

/-- The key is not that of the root, and the record found last is still that of the key. -/
def Undisturbed (i : ι) (u : Store) : Request → Prop
  | .start => (keys i).bytes ≠ []
  | .found _ => u.temp = some (slot i)
  | _ => True

end Steps

section Replies

variable {keys : ι → CString} {slot : ι → ℕ} {s s' : Store} {x x' : Threads Store Request ι}
  {i : ι} {n m : ℕ}

lemma bmod_objid (hn : n < slotCount) : ((n + 2 : ℕ) : ℤ).bmod (2 ^ 32) = (n + 2 : ℕ) := by
  rw [slotCount_eq] at hn
  exact Int.bmod_eq_of_le (by norm_num; omega) (by norm_num; omega)

/-- The first step finds the object of the key. -/
lemma act_start (hn : s.KeyAt (keys i) n) (hid : objId s.objs n = (n + 2 : ℕ))
    (hkey : (keys i).bytes ≠ []) :
    act keys i s .start = some ({ s with temp := some n }, .found (n + 2)) := by
  rw [act, if_neg hkey, findObjectId_some hn, hid]
  dsimp only
  rw [bmod_objid hn.1, if_neg (by omega), Int.toNat_natCast]

/-- The second step looks at the record found last. -/
lemma fillupSizeDetails_temp (htemp : s.temp = some m) (hid : objId s.objs m = (m + 2 : ℕ))
    (hm : m < slotCount) : fillupSizeDetails s (n + 2) =
      if m = n then some (objSize s.objs n, blocks (objSize s.objs n)) else none := by
  have hmod : ((m + 2 : ℕ) : ℤ) % 2 ^ 64 = (m + 2 : ℕ) := by
    rw [slotCount_eq] at hm
    exact Int.emod_eq_of_lt (by omega) (by norm_num; omega)
  simp only [fillupSizeDetails, htemp, hid, hmod]
  by_cases hmn : m = n
  · subst hmn
    rw [if_neg (by omega), if_pos rfl]
    rfl
  · rw [if_pos (by omega), if_neg hmn]

/-- The second step after a search that found slot `m`. -/
lemma act_found (htemp : s.temp = some m) (hid : objId s.objs m = (m + 2 : ℕ))
    (hm : m < slotCount) : act keys i s (.found (n + 2)) =
      some (s, if m = n then ownStat s n else .failed (-9)) := by
  rw [act, fillupSizeDetails_temp htemp hid hm]
  by_cases hmn : m = n
  · rw [if_pos hmn, if_pos hmn]
    rfl
  · rw [if_neg hmn, if_neg hmn]

/-- A request with no other thread around succeeds. -/
theorem getattr_alone (keys : ι → CString) (slot : ι → ℕ) (i : ι)
    (hn : s.KeyAt (keys i) (slot i)) (hid : objId s.objs (slot i) = (slot i + 2 : ℕ))
    (hkey : (keys i).bytes ≠ []) :
    Solo (act keys) (Undisturbed keys slot) i 2 s .start { s with temp := some (slot i) }
      (ownStat s (slot i)) := by
  have hstat : act keys i { s with temp := some (slot i) } (.found (slot i + 2)) =
      some (_, if slot i = slot i then ownStat { s with temp := some (slot i) } (slot i)
        else .failed (-9)) := act_found rfl hid hn.1
  rw [if_pos rfl] at hstat
  exact Solo.step hkey (act_start hn hid hkey) (Solo.step rfl hstat (Solo.refl _ _))

end Replies

section Runs

variable {keys : ι → CString} {slot : ι → ℕ} {s : Store} {x x' : Threads Store Request ι} {i : ι}

/-- The records stay; a request between its steps has the number of its own object, and the
record found last is that of some request. -/
structure Waiting (slot : ι → ℕ) (s : Store) (x : Threads Store Request ι) : Prop where
  objs : x.shared.objs = s.objs
  inodes : x.shared.bitMapInode = s.bitMapInode
  found : ∀ i ino, x.locals i = .found ino →
    ino = slot i + 2 ∧ ∃ j, x.shared.temp = some (slot j)

variable (hids : ∀ n, s.live n = true → objId s.objs n = (n + 2 : ℕ))
  (hkeys : ∀ i, s.KeyAt (keys i) (slot i))
include hids hkeys

lemma Waiting.start (h : Waiting slot s x) (hkey : (keys i).bytes ≠ []) :
    act keys i x.shared .start =
      some ({ x.shared with temp := some (slot i) }, .found (slot i + 2)) := by
  refine act_start ?_ ?_ hkey
  · rw [Store.KeyAt, show x.shared.named (keys i) = s.named (keys i) by
      funext n
      rw [Store.named, Store.named, Store.live, Store.live, h.objs, h.inodes]]
    exact hkeys i
  · rw [h.objs]
    exact hids _ (hkeys i).live

lemma Waiting.stat (h : Waiting slot s x) {ino : ℕ} (hi : x.locals i = .found ino) :
    ∃ j, x.shared.temp = some (slot j) ∧ act keys i x.shared (.found ino) =
      some (x.shared, if slot j = slot i then ownStat s (slot i) else .failed (-9)) := by
  obtain ⟨rfl, j, htemp⟩ := h.found i ino hi
  have hid : objId x.shared.objs (slot j) = (slot j + 2 : ℕ) := by
    rw [h.objs]
    exact hids _ (hkeys j).live
  refine ⟨j, htemp, ?_⟩
  rw [act_found htemp hid (hkeys j).1, ownStat, ownStat, h.objs]

/-- One step, from a state some run reaches. -/
lemma right_iff (h : Waiting slot s x) (i : ι) :
    Right keys slot s i x.shared (x.locals i) ↔ Undisturbed keys slot i x.shared (x.locals i) := by
  cases hi : x.locals i with
  | start =>
    by_cases hkey : (keys i).bytes = []
    · refine iff_of_false ?_ (fun hgood => hgood hkey)
      rintro ⟨s', ino, hact⟩
      rw [act, if_pos hkey] at hact
      cases hact
    · exact iff_of_true ⟨_, _, h.start hids hkeys hkey⟩ hkey
  | found ino =>
    obtain ⟨j, htemp, hact⟩ := h.stat hids hkeys hi
    rw [Right, Undisturbed, hact, htemp, Option.some.injEq]
    by_cases hj : slot j = slot i
    · rw [if_pos hj]
      exact iff_of_true ⟨_, rfl⟩ hj
    · rw [if_neg hj]
      refine iff_of_false ?_ hj
      rintro ⟨s', heq⟩
      cases heq
  | replied ino details => exact Iff.rfl
  | failed ret => exact Iff.rfl

/-- Every step keeps what the requests rely on. -/
lemma Waiting.step [DecidableEq ι] (h : Waiting slot s x)
    (hgood : Undisturbed keys slot i x.shared (x.locals i))
    {r : Unit} (hadvance : advance (act keys) x i = some (x', r)) : Waiting slot s x' := by
  obtain ⟨hact, hother⟩ := advance_eq_some.mp hadvance
  cases hi : x.locals i with
  | start =>
    rw [hi, h.start hids hkeys (by rwa [hi] at hgood), Option.some.injEq, Prod.mk.injEq] at hact
    obtain ⟨hshared, hlocal⟩ := hact
    refine ⟨?_, ?_, fun j ino hj => ?_⟩ <;> rw [← hshared]
    · exact h.objs
    · exact h.inodes
    · refine ⟨?_, i, rfl⟩
      rcases eq_or_ne j i with rfl | hne
      · rw [← hlocal] at hj
        cases hj
        rfl
      · rw [hother j hne] at hj
        exact (h.found j ino hj).1
  | found ino =>
    obtain ⟨k, -, hstat⟩ := h.stat hids hkeys hi
    rw [hi, hstat, Option.some.injEq, Prod.mk.injEq] at hact
    obtain ⟨hshared, hlocal⟩ := hact
    refine ⟨?_, ?_, fun j ino hj => ?_⟩ <;> rw [← hshared]
    · exact h.objs
    · exact h.inodes
    · rcases eq_or_ne j i with rfl | hne
      · rw [← hlocal] at hj
        split_ifs at hj
        cases hj
      · rw [hother j hne] at hj
        exact h.found j ino hj
  | replied ino details =>
    rw [hi] at hact
    cases hact
  | failed ret =>
    rw [hi] at hact
    cases hact

end Runs

section Results

/-- Any number of requests for live objects, in any order of their steps: all of them are
answered as if they were alone exactly when none is disturbed. -/
theorem stats_right_iff [DecidableEq ι] (keys : ι → CString) (slot : ι → ℕ) (s : Store)
    (hids : ∀ n, s.live n = true → objId s.objs n = (n + 2 : ℕ))
    (hkeys : ∀ i, s.KeyAt (keys i) (slot i)) (schedule : List ι) :
    Along (advance (act keys)) (fun x i => Right keys slot s i x.shared (x.locals i))
        ⟨s, fun _ => .start⟩ schedule ↔
      Along (advance (act keys)) (fun x i => Undisturbed keys slot i x.shared (x.locals i))
        ⟨s, fun _ => .start⟩ schedule := by
  refine Along.congr (D := fun _ => True) (I := Waiting slot s) (fun x i hx _ => ?_)
    (fun x i x' r hx _ hgood hadvance => ?_) ⟨rfl, rfl, fun i ino hi => ?_⟩ fun _ _ => trivial
  · exact right_iff hids hkeys hx i
  · exact hx.step hids hkeys hgood hadvance
  · cases hi

/-- Two requests, for the keys "a" and "b". -/
def twoKeys (i : Fin 2) : CString := if i = 0 then keyA else keyB

lemma twoObjects_names : NamesOk .objfs twoObjects := by
  have hempty := objstoreInit_empty blankDevice_blank
  have hfits : Fits keyA := by decide
  have hfirst : NamesOk .objfs (created (objstoreInit blankDevice) 0 keyA) := by
    refine assigned_ok (empty_names hempty) (created_assigned hfits) hfits (fun m _ => ?_)
      (hempty.createdOk hfits)
    rw [Store.named, hempty.live, Bool.false_and]
  refine assigned_ok hfirst (created_assigned (by decide)) (by decide) (fun m _ => ?_)
    twoObjects_ok
  by_contra hnamed
  rw [Bool.not_eq_false] at hnamed
  have hlive := (named_iff.mp hnamed).1
  rw [live_created, hempty.live, Bool.false_or, decide_eq_true_eq] at hlive
  subst hlive
  exact absurd (((created_assigned hfits).self keyB).mp hnamed) (by decide)

lemma twoObjects_keyAt (i : Fin 2) : twoObjects.KeyAt (twoKeys i) i := by
  have hfits : Fits keyA := by decide
  have hsecond : Assigned (created (objstoreInit blankDevice) 0 keyA) twoObjects 1 keyB :=
    created_assigned (by decide)
  apply twoObjects_names.keyAt_of
  fin_cases i
  · refine (hsecond.other 0 keyA (by decide) hfits).trans ?_
    exact ((created_assigned hfits).self keyA).mpr rfl
  · exact (hsecond.self keyB).mpr rfl

lemma twoObjects_ids (n : ℕ) (hn : twoObjects.live n = true) :
    objId twoObjects.objs n = (n + 2 : ℕ) := by
  have hok : StoreOk .objfs True twoObjects := twoObjects_ok
  exact_mod_cast hok.ids n hn

lemma twoObjects_id (i : Fin 2) : objId twoObjects.objs i = (i + 2 : ℕ) :=
  twoObjects_ids i ((twoObjects_live i).mpr (by omega))

/-- One request after the other. -/
theorem stats_right_serial : Along (advance (act twoKeys))
    (fun x i => Right twoKeys (fun i => i) twoObjects i x.shared (x.locals i))
    ⟨twoObjects, fun _ => .start⟩ [0, 0, 1, 1] := by
  have hfirst := getattr_alone twoKeys (fun i => i) 0 (twoObjects_keyAt 0) (twoObjects_id 0)
    (by decide)
  have hsecond := getattr_alone (s := { twoObjects with temp := some 0 }) twoKeys (fun i => i) 1
    (twoObjects_keyAt 1) (twoObjects_id 1) (by decide)
  have htrace := (hfirst.trace (l := fun _ => .start) rfl).append (hsecond.trace rfl)
  exact (stats_right_iff twoKeys _ twoObjects twoObjects_ids twoObjects_keyAt _).mpr htrace.along

/-- The second request looks for its object between the two steps of the first. -/
theorem stats_race : ¬∀ (n : ℕ) (keys : Fin n → CString) (slot : Fin n → ℕ) (s : Store)
    (schedule : List (Fin n)), NamesOk .objfs s → (∀ i, s.KeyAt (keys i) (slot i)) →
    (∀ i, (keys i).bytes ≠ []) →
    Along (advance (act keys)) (fun x i => Right keys slot s i x.shared (x.locals i))
      ⟨s, fun _ => .start⟩ schedule := by
  intro hclaim
  have hright := hclaim 2 twoKeys (fun i => i) twoObjects ([0, 1] ++ [0]) twoObjects_names
    twoObjects_keyAt (by decide)
  have hfirst : Solo (act twoKeys) (fun _ _ _ => True) 0 1 twoObjects .start
      { twoObjects with temp := some 0 } (.found 2) :=
    Solo.step trivial (act_start (twoObjects_keyAt 0) (twoObjects_id 0) (by decide)) (Solo.refl _ _)
  have hsecond : Solo (act twoKeys) (fun _ _ _ => True) 1 1
    { twoObjects with temp := some 0 } .start
      { twoObjects with temp := some 1 } (.found 3) :=
    Solo.step trivial (act_start (twoObjects_keyAt 1) (twoObjects_id 1) (by decide)) (Solo.refl _ _)
  have hrun := ((hfirst.trace (l := fun _ => .start) rfl).append (hsecond.trace rfl)).run
  obtain ⟨u, hreply⟩ := ((along_append.mp hright).2 _ _ hrun).1
  -- the first request meets the record of the second
  have hstat : act twoKeys 0 { twoObjects with temp := some 1 } (.found (0 + 2)) =
      some (_, if 1 = 0 then ownStat { twoObjects with temp := some 1 } 0 else .failed (-9)) :=
    act_found rfl (twoObjects_id 1) (twoObjects_keyAt 1).1
  rw [if_neg one_ne_zero] at hstat
  have hfailed : ∀ ino details, Request.failed (-9) ≠ .replied ino details := by
    intro ino details h
    cases h
  have hsame := hstat.symm.trans hreply
  rw [Option.some.injEq, Prod.mk.injEq] at hsame
  exact hfailed _ _ hsame.2

end Results

end OsAssignments.ConcurrentStats
