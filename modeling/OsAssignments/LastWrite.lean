import OsAssignments.Reading
import OsAssignments.StoreRuns

/-!
# The last write to a block

Every write takes a new data block. A rewrite should then swing the pointer and
free the old block. Behind a direct pointer the new block is stored in another
encoding than the one the readers decode; behind an indirect pointer the pointer
is right and the freed bit is not that of the old block.
-/
namespace OsAssignments.LastWrite

open ByteMemory Bitmap ObjectTable Builds
open Machine (Along)

variable {build : Build} {s s' : Store} {n k : ℕ} {buf : Memory}

/-- The calls of a run, whose writes go to live objects with enough blocks free and
meet a further condition on the store, the slot and the logical block. -/
def Call (sound : Store → ℕ → ℕ → Prop) (s : Store) : Op → Prop
  | .create key => Fits key
  | .rename _ newname => Fits newname
  | .destroy _ => True
  | .write objid _ _ offset => ∃ n : ℕ, objid = n + 2 ∧ s.live n = true ∧
      offset / blockSize < 4100 ∧
      writeCost s n (offset / blockSize) ≤ (freeBits s.bitMapData dataBits).card ∧
      sound s n (offset / blockSize)
  | _ => False

/-- A whole-block write to the object in slot `n`. -/
def wholeWrite (n : ℕ) (w : ℕ × Memory) : Op := .write (n + 2) w.2 blockSize (blockSize * w.1)

/-- The block written last: `w` ends with a write of `buf` to `k` but for writes elsewhere. -/
def LastWritten (ws : List (ℕ × Memory)) (k : ℕ) (buf : Memory) : Prop :=
  ∃ pre post, ws = pre ++ (k, buf) :: post ∧ ∀ w ∈ post, w.1 ≠ k

/-- A read of a block returns the data last written to it, for a new object in any
store that calls meeting the condition have built. -/
def LastWriteWins (build : Build) (sound : Store → ℕ → ℕ → Prop)
    (readable : Store → ℕ → ℕ → Prop) (d : Device) : Prop :=
  ∀ pre s₀ rs₀, Along (exec build) (Call sound) (objstoreInit d) pre →
    execAll build (objstoreInit d) pre = some (s₀, rs₀) →
  ∀ key s₁ n, Fits key → exec build s₀ (.create key) = some (s₁, { ret := (n + 2 : ℕ) }) →
  ∀ ws s₂ rs₂, Along (exec build) (Call sound) s₁ (ws.map (wholeWrite n)) →
    execAll build s₁ (ws.map (wholeWrite n)) = some (s₂, rs₂) →
  ∀ k buf, LastWritten ws k buf → readable s₂ n k →
    ∃ s₃, exec build s₂ (.read (n + 2) blockSize (blockSize * k)) =
      some (s₃, { ret := blockSize, bytes := (List.range blockSize).map buf })

/-- What the cached build needs to read a block: the indirect blocks before its own. -/
def LowerTables (build : Build) (s : Store) (n k : ℕ) : Prop :=
  build = .objfsCached → ∀ j < (k - 4) / 1024, indirect s.objs n j ≠ 0

/-- One write of a sound run, and what it leaves. -/
lemma write_filled {objid : ℤ} {size offset : ℕ} {reply : Reply} (h : StoreOk build False s)
    (hcall : Call (Rewritable build) s (.write objid buf size offset))
    (hexec : exec build s (.write objid buf size offset) = some (s', reply)) :
    ∃ n grow b : ℕ, objid = n + 2 ∧ offset / blockSize < 4100 ∧ InObjs n ∧ StoreOk build False s' ∧
      Filled build s s' n (offset / blockSize) grow b (bufferPage buf size) := by
  obtain ⟨r, hwrite, -⟩ := exec_write hexec
  obtain ⟨n, rfl, hlive, hk, hfree, hr⟩ := hcall
  have hin := objstoreWrite_inBounds hwrite
  obtain ⟨s₁, grow, b, hw, hok, hfill⟩ := objstoreWrite_filled buf _ h hlive hin hfree hr
  rw [hwrite, Option.some.injEq, Prod.mk.injEq] at hw
  obtain rfl := hw.1
  exact ⟨n, grow, b, rfl, hk, hin.2.1, hok, hfill⟩

lemma step_ok {op : Op} {reply : Reply} (h : StoreOk build False s)
    (hcall : Call (Rewritable build) s op) (hexec : exec build s op = some (s', reply)) :
    StoreOk build False s' := by
  cases op with
  | create key =>
    obtain ⟨r, hcreate, -⟩ := exec_create hexec
    rcases create_cases hcreate with ⟨-, rfl, -⟩ | ⟨n, hn, -, rfl, -⟩
    · exact h
    · exact created_ok h hn.1 hcall
  | rename key newname =>
    obtain ⟨r, hrename, -⟩ := exec_rename hexec
    rcases rename_cases hrename with ⟨-, rfl, -⟩ | ⟨n, -, -, rfl, -⟩
    · exact h
    · exact renamed_ok h hcall
  | destroy key =>
    obtain ⟨r, hdestroy, -⟩ := exec_destroy hexec
    rcases destroy_cases hdestroy with ⟨-, rfl, -⟩ | ⟨n, hn, -, hs', -⟩
    · exact h
    · rw [hs']
      exact destroyed_ok h hn.live
  | write objid buf size offset =>
    obtain ⟨n, grow, b, -, -, -, hok, -⟩ := write_filled h hcall hexec
    exact hok
  | read objid size offset => exact hcall.elim
  | find key => exact hcall.elim
  | stat ino => exact hcall.elim

/-- Logical block `k` of slot `n` is mapped and holds `buf`. -/
structure Holds (build : Build) (s : Store) (n k : ℕ) (buf : Memory) : Prop where
  slot : InObjs n
  bound : k < 4100
  mapped : value build s (.ofBlock n k) ≠ 0
  page : blockOf build s n k = bufferPage buf blockSize

lemma Holds.of_write {grow b : ℕ} (hn : InObjs n) (hk : k < 4100)
    (hf : Filled build s s' n k grow b (bufferPage buf blockSize)) : Holds build s' n k buf := by
  have hval : value build s' (.ofBlock n k) = writeOffset + b := by
    rw [hf.data _ (Ref.isData_ofBlock n k), if_pos rfl]
  refine ⟨hn, hk, hval ▸ position_ne_zero b, ?_⟩
  rw [blockOf, hval, position_sub, hf.here]

/-- Writes to other blocks of the object leave a block as it is. -/
lemma Holds.other {m grow b : ℕ} {page : Block} (h : Holds build s n k buf) (hm : m < 4100)
    (hne : m ≠ k) (hf : Filled build s s' n m grow b page) : Holds build s' n k buf := by
  have href : Ref.ofBlock n k ≠ Ref.ofBlock n m := fun he =>
    hne (Ref.ofBlock_inj h.bound hm he).2.symm
  have hval : value build s' (.ofBlock n k) = value build s (.ofBlock n k) := by
    rw [hf.data _ (Ref.isData_ofBlock n k), if_neg href]
  refine ⟨h.slot, h.bound, hval ▸ h.mapped, ?_⟩
  rw [blockOf, hval, hf.there _ (Ref.isData_ofBlock n k) href h.mapped]
  exact h.page

lemma wholeWrite_block (k : ℕ) : blockSize * k / blockSize = k :=
  Nat.mul_div_cancel_left k (by norm_num)

/-- After a run of writes every written block holds what was written last. -/
lemma writes_hold {ws : List (ℕ × Memory)} {rs : List Reply} (h : StoreOk build False s)
    (hcalls : Along (exec build) (Call (Rewritable build)) s (ws.map (wholeWrite n)))
    (hrun : execAll build s (ws.map (wholeWrite n)) = some (s', rs)) :
    StoreOk build False s' ∧
      ∀ k buf, LastWritten ws k buf ∨ (Holds build s n k buf ∧ ∀ w ∈ ws, w.1 ≠ k) →
        Holds build s' n k buf := by
  induction ws generalizing s rs with
  | nil =>
    cases hrun
    refine ⟨h, fun k buf hk => ?_⟩
    rcases hk with ⟨pre, post, hsplit, -⟩ | ⟨hk, -⟩
    · simp at hsplit
    · exact hk
  | cons w ws ih =>
    obtain ⟨s₁, r, rs', hstep, hrun', rfl⟩ := Machine.run_cons.mp hrun
    obtain ⟨n', grow, b, hobj, hbound, hslot, hok, hfill⟩ := write_filled h hcalls.1 hstep
    obtain rfl : n = n' := by omega
    rw [wholeWrite_block] at hbound hfill
    obtain ⟨hok', hlast⟩ := ih hok (hcalls.2 s₁ r hstep) hrun'
    refine ⟨hok', fun k buf hk => hlast k buf ?_⟩
    rcases hk with ⟨pre, post, hsplit, hpost⟩ | ⟨hk, hall⟩
    · cases pre with
      | nil =>
        rw [List.nil_append, List.cons.injEq] at hsplit
        obtain ⟨rfl, rfl⟩ := hsplit
        exact Or.inr ⟨.of_write hslot hbound hfill, hpost⟩
      | cons w' pre =>
        rw [List.cons_append, List.cons.injEq] at hsplit
        exact Or.inl ⟨pre, post, hsplit.2, hpost⟩
    · refine Or.inr ⟨hk.other hbound (hall w (by simp)) hfill,
        fun w' hw' => hall w' (by simp [hw'])⟩

/-- A whole page read back is the buffer that filled it. -/
lemma pageBytes_whole (page : Block) (buf : Memory) (hpage : page = bufferPage buf blockSize) :
    pageBytes (fun _ => page) blockSize = (List.range blockSize).map buf := by
  refine List.map_congr_left fun i hi => ?_
  have hlt : i < 4096 := List.mem_range.mp hi
  have hmod : i % 4096 = i := Nat.mod_eq_of_lt hlt
  rw [hpage]
  simp only [bufferPage, Fin.ofNat, hmod]
  exact if_pos hlt

/-- A mapped block is read back, when the indirect blocks before it are there. -/
lemma Holds.read (hok : StoreOk build False s) (h : Holds build s n k buf)
    (hlower : LowerTables build s n k) :
    ∃ s', exec build s (.read (n + 2) blockSize (blockSize * k)) =
      some (s', { ret := blockSize, bytes := (List.range blockSize).map buf }) := by
  have htotal : totalBlocks blockSize = 1 := rfl
  have hread : ∃ dev, objstoreRead build s (n + 2) blockSize (blockSize * k) = _ ∧ _ :=
    objstoreRead_spec hok h.slot (fun i hi => ?_) fun j hj hlt => ?_
  · obtain ⟨dev, hr, -⟩ := hread
    have hbytes : pageBytes (fun i => blockOf build s n (blockSize * k / blockSize + i)) blockSize =
        (List.range blockSize).map buf := by
      rw [wholeWrite_block, ← pageBytes_whole _ buf h.page]
      refine pageBytes_congr fun i hi => ?_
      have hi0 : i = 0 := by omega
      rw [hi0, Nat.add_zero]
    rw [hbytes] at hr
    refine ⟨{ s with dev := dev }, ?_⟩
    simp only [exec, hr, Option.map_some, Nat.cast_ofNat]
  · have hi0 : i = 0 := by omega
    rw [hi0, wholeWrite_block, Nat.add_zero]
    exact ⟨h.bound, h.mapped⟩
  · rw [wholeWrite_block, htotal] at hlt
    have hk : ¬k < 4 := by omega
    by_cases hlast : j = (k - 4) / 1024
    · rw [hlast]
      exact Or.inl (hok.indirect_valid (by omega) (table_ne_zero hk h.bound h.mapped))
    · cases build with
      | objfs => exact Or.inr rfl
      | objfsCached => exact Or.inl (hok.indirect_valid hj (hlower rfl j (by omega)))

/-- The last write wins in every run whose rewrites are safe. -/
theorem last_write_wins (build : Build) (d : Device) (hd : Blank d) :
    LastWriteWins build (Rewritable build) (LowerTables build) d := by
  intro pre s₀ rs₀ hpre hrun₀ key s₁ n hkey hcreate ws s₂ rs₂ hws hrun₂ k buf hlast hlower
  have hok₀ : StoreOk build False s₀ :=
    hpre.invariant (fun _ _ _ _ h hcall hexec => step_ok h hcall hexec)
      (objstoreInit_empty hd).ok hrun₀
  have hok₁ : StoreOk build False s₁ :=
    step_ok hok₀ (show Call (Rewritable build) s₀ (.create key) from hkey) hcreate
  obtain ⟨hok₂, hholds⟩ := writes_hold hok₁ hws hrun₂
  exact (hholds k buf (Or.inl hlast)).read hok₂ hlower

/-- One block of ones. -/
def ones : Memory := fun _ => 1

/-- One block of twos. -/
def twos : Memory := fun _ => 2

/-- The store of a first object with ones in logical block `k`. -/
def firstWritten (k : ℕ) : Store :=
  hung .objfs (created (objstoreInit blankDevice) 0 keyA) 0 k blockSize 0 1
    (bufferPage ones blockSize)

section FirstWrite

lemma firstWritten_free : 1 ≤ (freeBits (firstWritten k).bitMapData dataBits).card := by
  have hempty := objstoreInit_empty blankDevice_blank
  have hfree : (freeBits (firstWritten k).bitMapData dataBits).card + _ = _ :=
    hung_free (hempty.picks k)
  rw [hempty.createdFree, writeCost] at hfree
  have hbits := dataBits_eq
  split_ifs at hfree <;> omega

variable {k : ℕ} (hk : k < 4100)
include hk

lemma firstWritten_exec :
    exec .objfs (created (objstoreInit blankDevice) 0 keyA) (wholeWrite 0 (k, ones)) =
      some (firstWritten k, { ret := blockSize }) := by
  exact (objstoreInit_empty blankDevice_blank).write .objfs (by decide) hk ones

lemma firstWritten_call (sound : Store → ℕ → ℕ → Prop)
    (hs : sound (created (objstoreInit blankDevice) 0 keyA) 0 k) :
    Call sound (created (objstoreInit blankDevice) 0 keyA) (wholeWrite 0 (k, ones)) := by
  have hempty := objstoreInit_empty blankDevice_blank
  exact ⟨0, rfl, by simp [live_created], by rwa [wholeWrite_block], hempty.createdCost 0 _,
    by rwa [wholeWrite_block]⟩

lemma firstWritten_hung {strict : Prop} : StoreOk .objfs strict (firstWritten k) ∧
    Filled .objfs (created (objstoreInit blankDevice) 0 keyA) (firstWritten k) 0 k blockSize 0
      (bufferPage ones blockSize) := by
  have hempty := objstoreInit_empty blankDevice_blank
  have hfits : Fits keyA := by decide
  exact hung_spec (created_ok hempty.ok hempty.firstSlot.1 hfits) (by simp [live_created]) hk
    (by rw [value_created hfits, hempty.value]) (hempty.picks k)

lemma firstWritten_ok {strict : Prop} : StoreOk .objfs strict (firstWritten k) :=
  (firstWritten_hung hk).1

lemma firstWritten_spec : StoreOk .objfs False (firstWritten k) ∧
    Filled .objfs (created (objstoreInit blankDevice) 0 keyA) (firstWritten k) 0 k blockSize 0
      (bufferPage ones blockSize) := firstWritten_hung hk

end FirstWrite

/-- The indirect entry written first may be written again. -/
lemma firstWritten_rewritable : Rewritable .objfs (firstWritten 4) 0 4 := by
  have hempty := objstoreInit_empty blankDevice_blank
  have hfits : Fits keyA := by decide
  have hw := writeOffset_eq
  have hok : StoreOk .objfs False (created (objstoreInit blankDevice) 0 keyA) :=
    created_ok hempty.ok hempty.firstSlot.1 hfits
  have hzero : value .objfs (created (objstoreInit blankDevice) 0 keyA) = fun _ => 0 := by
    rw [value_created hfits]
    exact funext fun r => hempty.value _ r
  have hind : indirect (created (objstoreInit blankDevice) 0 keyA).objs 0 0 = 0 :=
    congrFun hzero (.pointer 0 4)
  have hpicks : Picks (created (objstoreInit blankDevice) 0 keyA) 0 4 0 1 := hempty.picks 4
  have hneed : NeedsTable (created (objstoreInit blankDevice) 0 keyA) 0 4 := ⟨by norm_num, hind⟩
  have hfirst : firstWritten 4 = hungTable .objfs (created (objstoreInit blankDevice) 0 keyA) 0 0 0
      blockSize 0 1 (bufferPage ones blockSize) := by
    rw [firstWritten, hung, if_neg (by norm_num), if_pos hind]
  have hval : value .objfs (hungTable .objfs (created (objstoreInit blankDevice) 0 keyA) 0 0 0
      blockSize 0 1 (bufferPage ones blockSize)) = _ :=
    hungTable_value hok hpicks.data.1 hpicks.data.clear (by norm_num) (by norm_num) hind
      (hpicks.table hneed).1 (hpicks.table hneed).clear
  rw [hzero, ← hfirst] at hval
  have hblock : value .objfs (firstWritten 4) (.ofBlock 0 4) = writeOffset :=
    (firstWritten_spec (by norm_num)).2.data _ (Ref.isData_ofBlock 0 4) |>.trans (if_pos rfl)
      |>.trans (by omega)
  have hbits : (firstWritten 4).bitMapData = _ := hung_bitMapData
  rw [if_pos hneed] at hbits
  intro t _ hvt
  obtain rfl : t = 22815 := by omega
  refine ⟨by norm_num, by decide, fun r _ => ?_, fun hfree => ?_⟩
  · rw [hval, Function.update_apply, Function.update_apply]
    split_ifs <;> omega
  · -- block 2 is free as well, and found before
    have htwo := hfree.2.2 2 (by norm_num)
    have hused : bit (created (objstoreInit blankDevice) 0 keyA).bitMapData 2 = false :=
      hempty.used 2
    simp [hbits, hused] at htwo

section SecondWrite

variable {k : ℕ} (hk : k < 4100)
include hk

lemma firstWritten_live : (firstWritten k).live 0 = true := by
  rw [Store.live, (firstWritten_spec hk).2.inodes]
  simp [created]

lemma firstWritten_cost :
    writeCost (firstWritten k) 0 k ≤ (freeBits (firstWritten k).bitMapData dataBits).card := by
  have hmapped : value .objfs (firstWritten k) (.ofBlock 0 k) ≠ 0 := by
    rw [(firstWritten_spec hk).2.data _ (Ref.isData_ofBlock 0 k), if_pos rfl]
    exact position_ne_zero 0
  rw [writeCost, if_neg fun hneed => table_ne_zero hneed.1 hk hmapped hneed.2]
  exact firstWritten_free

lemma secondWrite_call (sound : Store → ℕ → ℕ → Prop) (hs : sound (firstWritten k) 0 k) :
    Call sound (firstWritten k) (wholeWrite 0 (k, twos)) := by
  have hcost := firstWritten_cost hk
  exact ⟨0, rfl, firstWritten_live hk, by rwa [wholeWrite_block], by rwa [wholeWrite_block],
    by rwa [wholeWrite_block]⟩

/-- Twos over the ones. -/
lemma rewrite_trace (hr : Rewritable .objfs (firstWritten k) 0 k) :
    ∃ s, Machine.Trace (exec .objfs) (Call (Rewritable .objfs))
      (created (objstoreInit blankDevice) 0 keyA) ([(k, ones), (k, twos)].map (wholeWrite 0)) s
      [{ ret := blockSize }, { ret := blockSize }] := by
  have hempty := objstoreInit_empty blankDevice_blank
  obtain ⟨hok, hfill⟩ := firstWritten_spec hk
  have hcost := firstWritten_cost hk
  obtain ⟨s, grow, b, hwrite, -, -⟩ := objstoreWrite_filled (z := blockSize) (n := 0) twos
    (blockSize * k) hok (firstWritten_live hk)
    ⟨le_rfl, by decide, by rwa [wholeWrite_block], hfill.lock.trans hempty.lock⟩
    (by rwa [wholeWrite_block]) (by rwa [wholeWrite_block])
  have hsecond : exec .objfs (firstWritten k) (wholeWrite 0 (k, twos)) =
      some (s, { ret := blockSize }) := by
    simp only [wholeWrite, exec, hwrite, Option.map_some]
  refine ⟨s, .cons (firstWritten_call hk _ fun t ht hv => ?_) (firstWritten_exec hk)
    (.cons (secondWrite_call hk _ hr) hsecond (.nil s))⟩
  rw [value_created (by decide), hempty.value] at hv
  omega

end SecondWrite

theorem last_write_wins_rewritten : ∃ s rs s',
    execAll .objfs (objstoreInit blankDevice)
      [.create keyA, wholeWrite 0 (4, ones), wholeWrite 0 (4, twos)] = some (s, rs) ∧
    exec .objfs s (.read ((0 : ℕ) + 2) blockSize (blockSize * 4)) =
      some (s', { ret := blockSize, bytes := (List.range blockSize).map twos }) := by
  have hempty := objstoreInit_empty blankDevice_blank
  have hcreate : exec .objfs (objstoreInit blankDevice) (.create keyA) = _ :=
    hempty.create (by decide)
  obtain ⟨s, htrace⟩ := rewrite_trace (by norm_num) firstWritten_rewritable
  obtain ⟨s', hread⟩ := last_write_wins .objfs blankDevice blankDevice_blank [] _ _ trivial rfl keyA
    _ 0 (by decide) hcreate _ s _ htrace.along htrace.run 4 twos
    ⟨[(4, ones)], [], rfl, fun _ h => absurd h List.not_mem_nil⟩ (fun h => absurd h (by decide))
  exact ⟨s, _, s', Machine.run_cons.mpr ⟨_, _, _, hcreate, htrace.run, rfl⟩, hread⟩

/-- The store after twos went over the ones of the direct block 0. -/
def swapped : Store :=
  writeDirect (placed .objfs (firstWritten 0) 0 1 (bufferPage twos blockSize)) 0 0 blockSize 1

lemma firstWritten_direct : direct (firstWritten 0).objs 0 0 = writeOffset := by
  have hdata := (firstWritten_spec (k := 0) (by norm_num)).2.data _ (Ref.isData_ofBlock 0 0)
  rwa [if_pos rfl, Nat.cast_zero, add_zero, value_ofBlock_lt (by norm_num)] at hdata

lemma swapped_exec : exec .objfs (firstWritten 0) (wholeWrite 0 (0, twos)) =
    some (swapped, { ret := blockSize }) := by
  have hempty := objstoreInit_empty blankDevice_blank
  have hused : ∀ m, bit (created (objstoreInit blankDevice) 0 keyA).bitMapData m = false :=
    hempty.used
  have hbits : (firstWritten 0).bitMapData = _ := hung_bitMapData
  rw [if_neg fun hneed => hneed.1 (by norm_num)] at hbits
  have hfirst : FirstFree (firstWritten 0).bitMapData dataBits 1 := by
    refine ⟨by decide, by simp [hbits, hused], fun m hm => ?_⟩
    obtain rfl : m = 0 := by omega
    simp [hbits]
  have hfill := (firstWritten_spec (show 0 < 4100 by norm_num)).2
  have hwrite : objstoreWrite .objfs (firstWritten 0) ((0 : ℕ) + 2) twos blockSize
      (blockSize * 0) = _ :=
    objstoreWrite_eq hfirst ⟨le_rfl, by decide, by norm_num, hfill.lock.trans hempty.lock⟩
  rw [wholeWrite_block, if_pos (by norm_num)] at hwrite
  simp only [wholeWrite, exec, hwrite, Option.map_some, swapped]

/-- The pointer now holds the number of the data block, not its place on the disk. -/
lemma swapped_direct : direct swapped.objs 0 0 = 1 := by
  have hne : ¬
    direct (placed .objfs (firstWritten 0) 0 1 (bufferPage twos blockSize)).objs 0 0 = 0 := by
    rw [show (placed .objfs (firstWritten 0) 0 1 (bufferPage twos blockSize)).objs =
      (firstWritten 0).objs from rfl, firstWritten_direct, writeOffset_eq]
    norm_num
  rw [swapped, writeDirect, if_neg hne]
  exact (pointer_setPointer (by norm_num) (by norm_num) (by norm_num)).trans (if_pos ⟨rfl, rfl⟩)

lemma swapped_dev : swapped.dev.disk.Healthy ∧ swapped.dev.disk.image 1 = fun _ => 0 := by
  have hempty := objstoreInit_empty blankDevice_blank
  have hok := (firstWritten_spec (show 0 < 4100 by norm_num)).1
  have hw := writeOffset_eq
  obtain ⟨disk, hdev, hblank⟩ := hempty.dev
  have hstart : StoreOk .objfs True (objstoreInit blankDevice) := hempty.ok
  have hdev₁ : (firstWritten 0).dev =
      storeBlock .objfs (objstoreInit blankDevice).dev 0 (bufferPage ones blockSize) := by
    rw [firstWritten, hung, if_pos (by norm_num)]
    rfl
  have hfirst : (firstWritten 0).dev.disk.image 1 = fun _ => 0 := by
    have hlow : (storeBlock .objfs (objstoreInit blankDevice).dev 0
        (bufferPage ones blockSize)).disk.image 1 = _ :=
      storeBlock_low hstart.device (validBlock_ofNat (b := 0) (by decide)) (by omega)
    rw [hdev₁, hlow, hdev]
    exact hblank.zero 1
  have hdev' : swapped.dev =
    storeBlock .objfs (firstWritten 0).dev 1 (bufferPage twos blockSize) := by
    rw [swapped, writeDirect]
    split_ifs <;> rfl
  have hvalid : BlockCache.ValidBlock 1 := validBlock_ofNat (b := 1) (by decide)
  rw [hdev']
  exact ⟨(storeBlock_ok hok.device hvalid).healthy,
    (storeBlock_low hok.device hvalid (by omega)).trans hfirst⟩

/-- A rewritten direct block reads as the disk block with the number of its data block. -/
theorem rewritten_direct_lost :
    ¬LastWriteWins .objfs (fun _ _ _ => True) (fun _ _ _ => True) blankDevice := by
  intro hclaim
  have hempty := objstoreInit_empty blankDevice_blank
  have h0 : (0 : ℕ) < 4100 := by norm_num
  have hcreate : exec .objfs (objstoreInit blankDevice) (.create keyA) = _ :=
    hempty.create (by decide)
  have htrace : Machine.Trace (exec .objfs) (Call fun _ _ _ => True)
      (created (objstoreInit blankDevice) 0 keyA)
        ([(0, ones), (0, twos)].map (wholeWrite 0)) swapped
      [{ ret := blockSize }, { ret := blockSize }] :=
    .cons (firstWritten_call h0 _ trivial) (firstWritten_exec h0)
      (.cons (secondWrite_call h0 _ trivial) swapped_exec (.nil _))
  obtain ⟨s, hread⟩ := hclaim [] _ _ trivial rfl keyA _ 0 (by decide) hcreate _ _ _ htrace.along
    htrace.run 0 twos ⟨[(0, ones)], [], rfl, fun _ h => absurd h List.not_mem_nil⟩ trivial
  obtain ⟨dev, hzeros⟩ := objstoreRead_direct .objfs swapped (n := 0) (by decide)
    (show blockSize * 0 / blockSize = 0 by norm_num) (by norm_num)
    (show totalBlocks blockSize = 1 from rfl)
  have hload : (loadBlock .objfs swapped.dev (direct swapped.objs 0 0 - writeOffset)).2 =
      fun _ => 0 := by
    rw [swapped_direct, loadBlock, add_sub_cancel, readBlock_val swapped_dev.1 (by norm_num),
      swapped_dev.2]
  rw [exec, hzeros, hload, Option.map_some, Option.some.injEq, Prod.mk.injEq,
    Reply.mk.injEq] at hread
  have hbyte := congrArg (fun l => l[0]?) hread.2.2.1
  have hpos : 0 < blockSize := by decide
  simp only [pageBytes, List.getElem?_map, List.getElem?_range hpos, Option.map_some] at hbyte
  exact absurd hbyte (by decide)

end OsAssignments.LastWrite
