import OsAssignments.Names

/-!
# Uniqueness of keys

`create_object` and `rename_object` look for no duplicate: the first takes a free
slot whatever its name, the second gives the record it finds any name. The names
stay distinct exactly as long as no call asks for a second object of one name.
-/
namespace OsAssignments.KeyUniqueness

open ByteMemory Bitmap ObjectTable Builds
open Machine (Along)

variable {build : Build} {s s' : Store} {key key' : CString} {n m : ℕ}

/-- A live object is named `key`. -/
def Named (s : Store) (key : CString) : Prop := ∃ n, s.KeyAt key n

/-- The calls about names, with keys of at most 47 bytes. -/
def Call : Op → Prop
  | .create key => Fits key
  | .rename key newname => Fits key ∧ Fits newname
  | .destroy key => Fits key
  | _ => False

/-- What the header comments demand of a call: names stay distinct, a request for
a duplicate is refused, and a destroyed name is gone. -/
def Behaves (build : Build) (s : Store) (op : Op) : Prop :=
  (∀ s' reply, exec build s op = some (s', reply) → UniqueKeys s') ∧
  match op with
  | .create key => Named s key → exec build s (.create key) = some (s, { ret := -1 })
  | .rename key newname => newname ≠ key → Named s newname →
      exec build s (.rename key newname) = some (s, { ret := -1 })
  | .destroy key => ∀ s', exec build s (.destroy key) = some (s', { ret := 0 }) →
      (findObjectId s' key).2 = -1
  | _ => True

/-- No second object of one name is asked for: a new key is not in use unless every
slot is taken, and a new name is not in use unless it is the old one or nothing is renamed. -/
def Distinct (s : Store) : Op → Prop
  | .create key => Named s key → freeBits s.bitMapInode slotCount = ∅
  | .rename key newname => newname ≠ key → Named s newname → ¬Named s key
  | _ => True

lemma noKey_of_not_named (h : ¬Named s key) : s.NoKey key :=
  (s.keyAt_or_noKey key).resolve_left h

section Steps

variable (h : NamesOk build s)
include h

/-- A call that asks for no duplicate keeps the names distinct. -/
lemma step_names {op : Op} {reply : Reply} (hcall : Call op) (hd : Distinct s op)
    (hexec : exec build s op = some (s', reply)) : NamesOk build s' := by
  cases op with
  | create key =>
    obtain ⟨r, hcreate, -⟩ := exec_create hexec
    rcases create_cases hcreate with ⟨-, rfl, -⟩ | ⟨n, hn, -, rfl, -⟩
    · exact h
    · have hnew : ¬Named s key := by
        intro hnamed
        have hmem : n ∈ freeBits s.bitMapInode slotCount := by simp [hn.1, hn.clear]
        rw [hd hnamed] at hmem
        exact absurd hmem (Finset.notMem_empty n)
      refine assigned_ok h (created_assigned hcall) hcall (fun m _ => ?_)
        (created_ok h.store hn.1 hcall)
      by_contra hm
      exact hnew ⟨m, h.keyAt_of (by simpa using hm)⟩
  | rename key newname =>
    obtain ⟨r, hrename, -⟩ := exec_rename hexec
    rcases rename_cases hrename with ⟨-, rfl, -⟩ | ⟨n, hn, -, rfl, -⟩
    · exact h
    · refine assigned_ok h (renamed_assigned hcall.2 hn.live) hcall.2 (fun m hm => ?_)
        (renamed_ok h.store hcall.2)
      by_contra hmk
      have hmk' : s.named newname m = true := by simpa using hmk
      by_cases hsame : newname = key
      · exact hm (h.unique key m n (hsame ▸ hmk') hn.2.1)
      · exact hd hsame ⟨m, h.keyAt_of hmk'⟩ ⟨n, hn⟩
  | destroy key =>
    obtain ⟨r, hdestroy, -⟩ := exec_destroy hexec
    rcases destroy_cases hdestroy with ⟨-, rfl, -⟩ | ⟨n, hn, -, hs', -⟩
    · exact h
    · rw [hs']
      exact (destroyed_names h hn).1
  | write objid buf size offset => exact hcall.elim
  | read objid size offset => exact hcall.elim
  | find key => exact hcall.elim
  | stat ino => exact hcall.elim

/-- A call does what the comments demand exactly when it asks for no duplicate. -/
lemma behaves_iff {op : Op} (hcall : Call op) : Behaves build s op ↔ Distinct s op := by
  constructor
  · rintro ⟨-, hop⟩
    cases op with
    | create key =>
      intro hnamed
      by_contra hfree
      obtain ⟨n, hn⟩ := exists_firstFree (Finset.nonempty_iff_ne_empty.mpr hfree)
      have hrefused := hop hnamed
      rw [exec, createObject_eq hn] at hrefused
      split_ifs at hrefused
      · rw [Option.map_some, Option.some.injEq, Prod.mk.injEq, Reply.mk.injEq] at hrefused
        omega
      · rw [Option.map_none] at hrefused
        exact (Option.some_ne_none _ hrefused.symm).elim
    | rename key newname =>
      rintro hne hnamed ⟨n, hn⟩
      have hrefused := hop hne hnamed
      have hid := h.store.ids n hn.live
      rw [exec, renameObject_eq hn] at hrefused
      split_ifs at hrefused
      · rw [Option.map_some, Option.some.injEq, Prod.mk.injEq, Reply.mk.injEq] at hrefused
        omega
      · rw [Option.map_none] at hrefused
        exact (Option.some_ne_none _ hrefused.symm).elim
    | destroy key => trivial
    | write objid buf size offset => trivial
    | read objid size offset => trivial
    | find key => trivial
    | stat ino => trivial
  · intro hd
    refine ⟨fun s' reply hexec => (step_names h hcall hd hexec).unique, ?_⟩
    cases op with
    | create key =>
      intro hnamed
      rw [exec, createObject_full (hd hnamed)]
      rfl
    | rename key newname =>
      intro hne hnamed
      rw [exec, renameObject_none (noKey_of_not_named (hd hne hnamed))]
      rfl
    | destroy key =>
      intro s' hexec
      obtain ⟨r, hdestroy, hr⟩ := exec_destroy hexec
      rw [Reply.mk.injEq] at hr
      rcases destroy_cases hdestroy with ⟨-, -, hr'⟩ | ⟨n, hn, -, hs', -⟩
      · omega
      · rw [hs', findObjectId_none (destroyed_names h hn).2]
    | write objid buf size offset => trivial
    | read objid size offset => trivial
    | find key => trivial
    | stat ino => trivial

end Steps

/-- Over every run of naming calls: each call behaves as the comments demand if and
only if no call asks for a duplicate. -/
theorem behaves_iff_distinct (build : Build) (d : Device) (hd : Blank d) (ops : List Op)
    (hops : ∀ op ∈ ops, Call op) :
    Along (exec build) (Behaves build) (objstoreInit d) ops ↔
      Along (exec build) Distinct (objstoreInit d) ops := by
  refine Along.congr (D := Call) (I := NamesOk build) (fun s op hs hcall => ?_)
    (fun s op s' reply hs hcall hdist hexec => ?_) (empty_names (objstoreInit_empty hd)) hops
  · exact behaves_iff hs hcall
  · exact step_names hs hcall hdist hexec

lemma empty_not_named {d : Device} (hs : Empty d s) : ¬Named s key := by
  rintro ⟨n, hn⟩
  have := hn.live
  rw [hs.live] at this
  contradiction

theorem create_destroy_behaves : Along (exec .objfs) (Behaves .objfs) (objstoreInit blankDevice)
    [.create keyA, .destroy keyA] := by
  refine (behaves_iff_distinct .objfs blankDevice blankDevice_blank _ fun op hop => ?_).mpr
    ⟨fun hnamed => ?_, fun s r _ => ⟨trivial, fun _ _ _ => trivial⟩⟩
  · have hfits : Fits keyA := by decide
    simp only [List.mem_cons, List.not_mem_nil, or_false] at hop
    rcases hop with rfl | rfl <;> exact hfits
  · exact absurd hnamed (empty_not_named (objstoreInit_empty blankDevice_blank))

/-- A second object is created under a name in use. -/
theorem duplicate_created : ¬∀ ops, (∀ op ∈ ops, Call op) →
    Along (exec .objfs) (Behaves .objfs) (objstoreInit blankDevice) ops := by
  intro hclaim
  have hfits : Fits keyA := by decide
  have hempty := objstoreInit_empty blankDevice_blank
  have hcreate : exec .objfs (objstoreInit blankDevice) (.create keyA) = _ :=
    hempty.create (by decide)
  have hnames : NamesOk .objfs (created (objstoreInit blankDevice) 0 keyA) :=
    step_names (empty_names hempty) (show Call (.create keyA) from hfits)
      (fun hnamed => absurd hnamed (empty_not_named hempty)) hcreate
  have hrun := hclaim [.create keyA, .create keyA] (by
    intro op hop
    simp only [List.mem_cons, List.not_mem_nil, or_false, or_self] at hop
    subst hop
    exact hfits)
  have hsecond := (hrun.2 _ _ hcreate).1
  have hdistinct := (behaves_iff hnames (show Call (.create keyA) from hfits)).mp hsecond
  have hnamed : (created (objstoreInit blankDevice) 0 keyA).named keyA 0 = true :=
    ((created_assigned hfits).self keyA).mpr rfl
  have hfull := hdistinct ⟨0, hnames.keyAt_of hnamed⟩
  have hfree : 1 ∈ freeBits (created (objstoreInit blankDevice) 0 keyA).bitMapInode slotCount := by
    rw [mem_freeBits]
    refine ⟨by decide, ?_⟩
    have h1 : (created (objstoreInit blankDevice) 0 keyA).live 1 = _ := live_created
    rwa [hempty.live] at h1
  rw [hfull] at hfree
  exact absurd hfree (Finset.notMem_empty 1)

end OsAssignments.KeyUniqueness
