import OsAssignments.StoreRuns

/-!
# Block accounting over runs

Calls that create, rename and destroy objects and write unmapped blocks of live
ones keep the data bitmap and the references in step, as long as every name fits
its field. A longer name runs on into the block pointers of the record.
-/
namespace OsAssignments.BlockAccounting

open ByteMemory Bitmap ObjectTable Builds
open Machine (Along)

variable {build : Build} {s s' : Store}

/-- The data bitmap counts the references of the live objects. -/
structure ExactAccounts (build : Build) (s : Store) : Prop where
  counted : ∀ b : ℕ, bit s.bitMapData b = true ↔
    ∃! r : Ref, s.live r.slot = true ∧ value build s r = writeOffset + b
  unshared : ∀ r r' : Ref, s.live r.slot = true → s.live r'.slot = true → value build s r ≠ 0 →
    value build s r = value build s r' → r = r'
  above : ∀ r : Ref, s.live r.slot = true → value build s r ≠ 0 → writeOffset ≤ value build s r
  cleared : ∀ n, s.live n = false → objSize s.objs n = 0 ∧ ∀ j < 8, pointer s.objs n j = 0

/-- The calls whose accounts are followed, with names restricted to `names`: an
unmapped block of a live object is written while two data blocks are free. -/
def Call (build : Build) (names : CString → Prop) (s : Store) : Op → Prop
  | .create key => names key
  | .rename _ newname => names newname
  | .destroy _ => True
  | .write objid _ _ offset => ∃ n : ℕ, objid = n + 2 ∧ s.live n = true ∧
      offset / blockSize < 4100 ∧ value build s (.ofBlock n (offset / blockSize)) = 0 ∧
      2 ≤ (freeBits s.bitMapData dataBits).card
  | _ => False

/-- The invariant gives the accounts. -/
theorem exact_of_ok (h : StoreOk build True s) : ExactAccounts build s := by
  have hlive : ∀ r b, value build s r = writeOffset + (b : ℕ) → s.live r.slot = true := by
    intro r b hr
    by_contra hdead
    rw [h.value_dead (by simpa using hdead)] at hr
    exact position_ne_zero b hr.symm
  refine ⟨fun b => ?_, fun r r' _ _ hr he => h.accounts.inj hr he, fun r _ hr => ?_, h.clean⟩
  · rw [h.accounts.ledger.used_iff b]
    simp only [h.accounts.owner_iff]
    constructor
    · rintro ⟨r, hr, huniq⟩
      exact ⟨r, ⟨hlive r b hr, hr⟩, fun q hq => huniq q hq.2⟩
    · rintro ⟨r, ⟨_, hr⟩, huniq⟩
      exact ⟨r, hr, fun q hq => huniq q ⟨hlive q b hq, hq⟩⟩
  · obtain ⟨b, _, hb⟩ := h.accounts.range r hr
    omega

lemma step_ok {op : Op} {reply : Reply} (h : StoreOk build True s) (hcall : Call build Fits s op)
    (hexec : exec build s op = some (s', reply)) : StoreOk build True s' := by
  cases op with
  | create key =>
    obtain ⟨r, hcreate, -⟩ := exec_create hexec
    rcases create_cases hcreate with ⟨-, rfl, -⟩ | ⟨n, hn, -, rfl, -⟩
    · exact h
    · exact created_ok h hn.1 hcall
  | rename key newname =>
    obtain ⟨r, hrename, -⟩ := exec_rename hexec
    rcases rename_cases hrename with ⟨-, rfl, -⟩ | ⟨n, -, -, rfl, -⟩
    · exact h
    · exact renamed_ok h hcall
  | destroy key =>
    obtain ⟨r, hdestroy, -⟩ := exec_destroy hexec
    rcases destroy_cases hdestroy with ⟨-, rfl, -⟩ | ⟨n, hn, -, hs', -⟩
    · exact h
    · rw [hs']
      exact destroyed_ok h hn.live
  | write objid buf size offset =>
    obtain ⟨r, hwrite, -⟩ := exec_write hexec
    obtain ⟨n, rfl, hlive, -, hv, hfree⟩ := hcall
    obtain ⟨s₁, b, hw, hok, -, -⟩ := objstoreWrite_fresh buf _ h hlive
      (objstoreWrite_inBounds hwrite) hv ((writeCost_le _ _ _).trans hfree)
    rw [hwrite, Option.some.injEq, Prod.mk.injEq] at hw
    rw [hw.1]
    exact hok
  | read objid size offset => exact hcall.elim
  | find key => exact hcall.elim
  | stat ino => exact hcall.elim

/-- The accounts are exact after every run of calls whose names fit the key field. -/
theorem accounts_exact (build : Build) (d : Device) (hd : Blank d) (ops : List Op)
    (hops : Along (exec build) (Call build Fits) (objstoreInit d) ops) (s : Store)
    (rs : List Reply) (hrun : execAll build (objstoreInit d) ops = some (s, rs)) :
    ExactAccounts build s := by
  have hok : StoreOk build True s :=
    hops.invariant (fun _ _ _ _ h hcall hexec => step_ok h hcall hexec)
      (objstoreInit_empty hd).ok hrun
  exact exact_of_ok hok

theorem accounts_exact_write : ∃ s rs,
    execAll .objfs (objstoreInit blankDevice) [.create keyA, .write 2 (fun _ => 1) 4096 0] =
      some (s, rs) ∧ ExactAccounts .objfs s := by
  have hempty := objstoreInit_empty blankDevice_blank
  have hk : Fits keyA := by decide
  have hlive : (created (objstoreInit blankDevice) 0 keyA).live 0 = true := by simp [live_created]
  have hin : WriteInBounds (created (objstoreInit blankDevice) 0 keyA) 0 (0 / blockSize) 4096 :=
    ⟨by norm_num, by decide, by norm_num, hempty.lock⟩
  have hv : value .objfs (created (objstoreInit blankDevice) 0 keyA) (.ofBlock 0 (0 / blockSize)) =
      0 := by rw [value_created hk, hempty.value]
  have hok : StoreOk .objfs True (created (objstoreInit blankDevice) 0 keyA) :=
    created_ok hempty.ok hempty.firstSlot.1 hk
  obtain ⟨s, b, hw, -⟩ := objstoreWrite_fresh (fun _ => 1) _ hok hlive hin hv
    (hempty.createdCost 0 _)
  have hexec : exec .objfs (created (objstoreInit blankDevice) 0 keyA)
      (.write 2 (fun _ => 1) 4096 0) = some (s, { ret := 4096 }) := by
    rw [exec, show (2 : ℤ) = ((0 : ℕ) : ℤ) + 2 by norm_num, hw]
    rfl
  have htrace : Machine.Trace (exec .objfs) (Call .objfs Fits) (objstoreInit blankDevice)
      [.create keyA, .write 2 (fun _ => 1) 4096 0] s [{ ret := 2 }, { ret := 4096 }] :=
    .cons hk (hempty.create (by decide))
      (.cons ⟨0, by norm_num, hlive, by norm_num, hv, hempty.createdRoom⟩ hexec (.nil s))
  exact ⟨s, _, htrace.run, accounts_exact .objfs blankDevice blankDevice_blank _ htrace.along s _
    htrace.run⟩

/-- A key of 49 bytes. -/
def longKey : CString := ⟨List.replicate 49 97, by simp⟩

/-- The last byte of a 49-byte key lands in `direct[0]`. -/
theorem long_key_breaks_accounts :
    ¬∀ ops s rs, Along (exec .objfs) (Call .objfs fun _ => True) (objstoreInit blankDevice) ops →
      execAll .objfs (objstoreInit blankDevice) ops = some (s, rs) → ExactAccounts .objfs s := by
  intro hclaim
  have hempty := objstoreInit_empty blankDevice_blank
  have htrace : Machine.Trace (exec .objfs) (Call .objfs fun _ => True) (objstoreInit blankDevice)
      [.create longKey] (created (objstoreInit blankDevice) 0 longKey) [{ ret := 2 }] :=
    .cons trivial (hempty.create (by decide)) (.nil _)
  have hexact := hclaim _ _ _ htrace.along htrace.run
  have hval : value .objfs (created (objstoreInit blankDevice) 0 longKey) (.pointer 0 0) = 97 := by
    rw [value, created, hempty.objs]
    decide
  have habove := hexact.above (.pointer 0 0) (by simp [live_created, Ref.slot])
    (by rw [hval]; norm_num)
  rw [hval, writeOffset_eq] at habove
  norm_num at habove

end OsAssignments.BlockAccounting
