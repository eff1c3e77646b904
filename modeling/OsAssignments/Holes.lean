import OsAssignments.Layout
import OsAssignments.RecordedSize

/-!
# Reading a hole

A zero pointer means that nothing was written: `objstore_write` and `destroy_object`
test for it, `objstore_read` does not. Without the cache it reads disk block 0 in place
of the hole, the start of the object table; with the cache it asks for data block
`-WRITE_OFFSET`, a cell before the cache arrays.
-/
namespace OsAssignments.Holes

open ByteMemory Bitmap ObjectTable Builds
open BlockCache (ValidBlock slot_bounds slot_tmod)
open Layout (diskPage pageBytes_get read_layout slot slot_eq_value)
open Machine (Along run)
open RecordedSize (WriteCall succeed)

variable {build : Build} {strict : Prop} {s s' : Store} {n k L z size offset : ℕ} {p : Block}

/-- What was written to logical block `L`: zeros where it is not mapped. -/
def contents (build : Build) (s : Store) (n L : ℕ) : Block :=
  if value build s (.ofBlock n L) = 0 then fun _ => 0 else blockOf build s n L

section Contents

/-- A write to an unmapped block changes the contents of that block only. -/
lemma contents_filled {grow b : ℕ} (hk : k < 4100) (hf : Filled build s s' n k grow b p)
    (hL : L < 4100) :
    contents build s' n L = if L = k then p else contents build s n L := by
  have hval : ∀ L, value build s' (.ofBlock n L) = _ := fun L =>
    hf.data _ (Ref.isData_ofBlock n L)
  rw [contents, contents, blockOf, blockOf, hval]
  by_cases hLk : L = k
  · rw [if_pos hLk, if_pos (congrArg (Ref.ofBlock n) hLk),
      if_neg (position_ne_zero b), position_sub]
    exact hf.here
  · have href : Ref.ofBlock n L ≠ Ref.ofBlock n k := fun he => hLk (Ref.ofBlock_inj hL hk he).2
    rw [if_neg hLk, if_neg href]
    split_ifs with hz
    · rfl
    · exact hf.there _ (Ref.isData_ofBlock n L) href hz

/-- A write to a block that was not written before, with enough blocks free. -/
def FirstWrite (build : Build) (n : ℕ) (s : Store) (w : WriteCall) : Prop :=
  value build s (.ofBlock n w.block) = 0 ∧
    writeCost s n w.block ≤ (freeBits s.bitMapData dataBits).card

/-- What a list of writes leaves in logical block `L`. -/
def pageAfter (ws : List WriteCall) (L : ℕ) (page : Block) : Block :=
  ws.foldl (fun page w => if L = w.block then w.page else page) page

/-- After a run of writes, every block at most once, each block holds what was written. -/
theorem contents_run {ws : List WriteCall} {rs : List ℤ} (h : StoreOk build strict s)
    (hlive : s.live n = true) (hfirst : Along (succeed build n) (FirstWrite build n) s ws)
    (hrun : run (succeed build n) s ws = some (s', rs)) :
    StoreOk build strict s' ∧
      ∀ L < 4100, contents build s' n L = pageAfter ws L (contents build s n L) := by
  induction ws generalizing s rs with
  | nil =>
    cases hrun
    exact ⟨h, fun _ _ => rfl⟩
  | cons w ws ih =>
    obtain ⟨s₁, r, rs', hstep, hrun', -⟩ := Machine.run_cons.mp hrun
    have hwrite : objstoreWrite build s (n + 2) w.buf w.size w.offset = some (s₁, r) :=
      (Option.filter_eq_some_iff.mp hstep).1
    have hin := objstoreWrite_inBounds hwrite
    obtain ⟨⟨hv, hfree⟩, hrest⟩ := hfirst
    obtain ⟨s₂, b, hfresh, hok, hfill, -⟩ := objstoreWrite_fresh w.buf w.offset h hlive hin hv hfree
    rw [hwrite, Option.some.injEq, Prod.mk.injEq] at hfresh
    obtain rfl := hfresh.1
    have hlive₁ : s₁.live n = true := by rwa [Store.live, hfill.inodes]
    obtain ⟨hok', hpages⟩ := ih hok hlive₁ (hrest s₁ r hstep) hrun'
    refine ⟨hok', fun L hL => ?_⟩
    rw [hpages L hL, contents_filled hin.2.2.1 hfill hL]
    rfl

end Contents

/-- The read succeeds, written blocks read as written and the others as zeros, and with the
cache every block number asked for is one of a slot of the cache. -/
structure ReadsRight (build : Build) (s : Store) (n size offset : ℕ) : Prop where
  bytes : ∃ s' bs, objstoreRead build s (n + 2) size offset = some (s', (size : ℤ), bs) ∧
    bs.length = size ∧ ∀ k < size, bs[k]? =
      some (contents build s n (offset / blockSize + k / blockSize) (Fin.ofNat blockSize k))
  slots : build = .objfsCached → ∀ ptr ∈ readFetches build s n size offset,
    0 ≤ ptr - writeOffset ∧ 0 ≤ (ptr - writeOffset).tmod cacheBlocks ∧
      (ptr - writeOffset).tmod cacheBlocks < cacheBlocks

/-- All logical blocks of the range are mapped, and so are the tables read on the way. -/
structure NoHole (build : Build) (s : Store) (n p total : ℕ) : Prop where
  mapped : ∀ i < total, value build s (.ofBlock n (p + i)) ≠ 0
  tables : ∀ j < 4, 0 < total → 4 + 1024 * j < p + total → indirect s.objs n j ≠ 0

/-- What an unmapped block is read from: disk block 0, or where the table is missing the
disk block that an integer of disk block 0 names. -/
def holePage (s : Store) (n L : ℕ) : Block :=
  if L < 4 ∨ indirect s.objs n ((L - 4) / 1024) ≠ 0 then s.dev.disk.image 0
  else diskPage s.dev.disk (entry (s.dev.disk.image 0) ((L - 4) % 1024))

/-- The bytes asked for are zero in the blocks that stand in for the unmapped ones. -/
def ZeroHoles (s : Store) (n size offset : ℕ) : Prop :=
  ∀ k < size, value .objfs s (.ofBlock n (offset / blockSize + k / blockSize)) = 0 →
    holePage s n (offset / blockSize + k / blockSize) (Fin.ofNat blockSize k) = 0

section Uncached

lemma diskPage_zero (d : Disk) : diskPage d 0 = d.image 0 := if_neg (lt_irrefl 0)

variable (h : StoreOk .objfs strict s) (hL : L < 4100)
include h hL

/-- The reader's slot of an unmapped block. -/
lemma diskPage_hole (hz : value .objfs s (.ofBlock n L) = 0) :
    diskPage s.dev.disk (slot s n L) = holePage s n L := by
  by_cases h4 : L < 4
  · rw [value_ofBlock_lt h4] at hz
    rw [slot, if_pos h4, hz, diskPage_zero, holePage, if_pos (Or.inl h4)]
  · rw [slot, if_neg h4]
    by_cases ht : indirect s.objs n ((L - 4) / 1024) = 0
    · rw [ht, diskPage_zero, holePage, if_neg (by simp [h4, ht])]
    · rw [Ref.ofBlock_entry h4 hL, value, if_neg ht] at hz
      rw [Layout.diskPage_view (h.indirect_valid (by omega) ht), hz, diskPage_zero, holePage,
        if_pos (Or.inr ht)]

/-- The reader's slot of a mapped block. -/
lemma diskPage_mapped (hne : value .objfs s (.ofBlock n L) ≠ 0) :
    diskPage s.dev.disk (slot s n L) = contents .objfs s n L := by
  rw [slot_eq_value h hL hne, Layout.diskPage_view (h.valid hne), contents, if_neg hne]

omit hL in
/-- Without the cache holes read as zeros where what stands in for them is zero. -/
theorem uncached_iff (hn : InObjs n) (hrange : offset / blockSize + totalBlocks size ≤ 4100) :
    ReadsRight .objfs s n size offset ↔ ZeroHoles s n size offset := by
  have hinside : ∀ k < size, offset / blockSize + k / blockSize < 4100 := by
    intro k hk
    have hpage : k / 4096 < totalBlocks size := lt_totalBlocks.mpr (by omega)
    exact (Nat.add_lt_add_left hpage _).trans_le hrange
  obtain ⟨s', bs, plan, hread⟩ := read_layout s n size offset h.device.healthy hn hrange
  have hbyte : ∀ k < size, (bs[k]? = some (contents .objfs s n (offset / blockSize + k / blockSize)
      (Fin.ofNat blockSize k)) ↔
      (value .objfs s (.ofBlock n (offset / blockSize + k / blockSize)) = 0 →
        holePage s n (offset / blockSize + k / blockSize) (Fin.ofNat blockSize k) = 0)) := by
    intro k hk
    rw [hread.byte k hk, Option.some.injEq]
    by_cases hz : value .objfs s (.ofBlock n (offset / blockSize + k / blockSize)) = 0
    · rw [diskPage_hole h (hinside k hk) hz, contents, if_pos hz]
      exact ⟨fun he _ => he, fun himp => himp hz⟩
    · rw [diskPage_mapped h (hinside k hk) hz]
      exact ⟨fun _ hz' => absurd hz' hz, fun _ => rfl⟩
  constructor
  · rintro ⟨⟨s₁, bs₁, hread₁, -, hbytes⟩, -⟩ k hk
    rw [hread.read, Option.some.injEq, Prod.mk.injEq, Prod.mk.injEq] at hread₁
    exact (hbyte k hk).mp (hread₁.2.2 ▸ hbytes k hk)
  · intro hzero
    exact ⟨⟨s', bs, hread.read, hread.length, fun k hk => (hbyte k hk).mpr (hzero k hk)⟩,
      fun hb => absurd hb (by decide)⟩

end Uncached

section Cached

/-- Where nothing is missing every fetch is one of a data block. -/
lemma fetches_valid (h : StoreOk build strict s) (hn : InObjs n)
    (hrange : offset / blockSize + totalBlocks size ≤ 4100)
    (hno : NoHole build s n (offset / blockSize) (totalBlocks size)) :
    ∀ ptr ∈ readFetches build s n size offset, ValidBlock (ptr - writeOffset) := by
  obtain ⟨dev, -, -, hplan⟩ := objstoreRead_planned h hn
    (fun i hi => ⟨by omega, hno.mapped i hi⟩)
    (fun j hj hpos hlt => Or.inl (h.indirect_valid hj (hno.tables j hj hpos hlt)))
  intro ptr hptr
  rw [hplan, List.mem_map] at hptr
  obtain ⟨x, hx, rfl⟩ := hptr
  cases x with
  | inl j =>
    obtain ⟨hj, hpos, hlt⟩ := readPlan_table hx
    exact h.indirect_valid hj (hno.tables j hj hpos hlt)
  | inr L =>
    obtain ⟨hlo, hhi⟩ := readPlan_block hrange hx
    have hne := hno.mapped (L - offset / blockSize) (by omega)
    rw [Nat.add_sub_cancel' hlo] at hne
    rw [Sum.elim_inr, slotIn_eq (by omega) hne]
    exact h.valid hne

/-- When no null pointer is fetched, the loop over the tables meets no hole. -/
lemma indirects_mapped {d₀ : Device} (ind : ℕ → ℤ) (k j : ℕ) (r : ReadState)
    (hP : SameBlocks build d₀ r.dev)
    (htable : ∀ t < k, ind (j + t) ≠ 0 → ValidBlock (ind (j + t) - writeOffset) ∧ ∀ e < 1024,
      entry ((device build).view d₀ (ind (j + t) - writeOffset)) e ≠ 0 →
        ValidBlock (entry ((device build).view d₀ (ind (j + t) - writeOffset)) e - writeOffset))
    (hall : ∀ ptr ∈ indirectFetches build ind k j r, ptr ≠ 0) :
    (∀ t < k, 0 < r.totalBlocks → 1024 * t < r.offie + r.totalBlocks → ind (j + t) ≠ 0) ∧
      ∀ x < min r.totalBlocks (1024 * k - r.offie),
        tableEntry (fun j => (device build).view d₀ (ind j - writeOffset)) j (r.offie + x) ≠ 0 := by
  induction k generalizing j r with
  | zero => exact ⟨fun t ht => absurd ht (Nat.not_lt_zero t), fun x hx => by omega⟩
  | succ k ih =>
    by_cases htotal : 0 < r.totalBlocks
    swap
    · exact ⟨fun t _ hpos => absurd hpos htotal, fun x hx => by omega⟩
    rw [indirectFetches, if_pos htotal] at hall
    have hind : ind (j + 0) ≠ 0 := hall _ List.mem_cons_self
    have hentries : ∀ ptr ∈ pointerFetches (entry (fetch build r.dev (ind j)).2) 1024 0 r.offie
        r.totalBlocks, ptr ≠ 0 := fun ptr hptr =>
      hall ptr (List.mem_cons_of_mem _ (List.mem_append_left _ hptr))
    have hrest : ∀ ptr ∈ indirectFetches build ind k (j + 1)
        (readPointers build (entry (fetch build r.dev (ind j)).2) 1024 0
          { r with dev := (fetch build r.dev (ind j)).1 }), ptr ≠ 0 := fun ptr hptr =>
      hall ptr (List.mem_cons_of_mem _ (List.mem_append_right _ hptr))
    -- this table is there, and its entries in the range are
    have hfetch := SameBlocks.fetches (htable 0 (by omega) hind).1 r.dev hP
    rw [Nat.add_zero] at hfetch
    rw [hfetch.2] at hentries hrest
    rw [pointerFetches_eq] at hentries
    have hfirst : ∀ x < min r.totalBlocks (1024 - r.offie),
        entry ((device build).view d₀ (ind j - writeOffset)) (0 + r.offie + x) ≠ 0 := by
      intro x hx
      refine hentries _ (List.mem_map.mpr ⟨_, ?_, rfl⟩)
      rw [List.mem_range'_1]
      omega
    have hloop := readPointers_loop build
      (entry ((device build).view d₀ (ind j - writeOffset))) 1024 0
      (fun x => (device build).view d₀ (entry ((device build).view d₀ (ind j - writeOffset))
        (0 + r.offie + x) - writeOffset)) { r with dev := (fetch build r.dev (ind j)).1 } hfetch.1
      fun x hx => by
        have hx' : x < min r.totalBlocks (1024 - r.offie) := hx
        exact SameBlocks.fetches
          ((htable 0 (by omega) hind).2 (0 + r.offie + x) (by omega) (hfirst x hx'))
    have hoffie : (readPointers build (entry ((device build).view d₀ (ind j - writeOffset))) 1024 0
        { r with dev := (fetch build r.dev (ind j)).1 }).offie = r.offie - 1024 :=
      readPointers_offie _ _ _ _ htotal
    generalize readPointers build (entry ((device build).view d₀ (ind j - writeOffset))) 1024 0
      { r with dev := (fetch build r.dev (ind j)).1 } = r₁ at hloop hoffie hrest
    have htot : r₁.totalBlocks = r.totalBlocks - min r.totalBlocks (1024 - r.offie) := hloop.total
    obtain ⟨htables, hlast⟩ := ih (j + 1) r₁ hloop.dev
      (fun t ht hne => by
        have hnext := htable (t + 1) (by omega)
        rw [show j + (t + 1) = j + 1 + t by omega] at hnext
        exact hnext hne)
      hrest
    refine ⟨fun t ht _ hlt => ?_, fun x hx => ?_⟩
    · cases t with
      | zero => exact hind
      | succ t =>
        rw [show j + (t + 1) = j + 1 + t by omega]
        exact htables t (by omega) (by omega) (by omega)
    · by_cases hx' : x < min r.totalBlocks (1024 - r.offie)
      · rw [tableEntry_first _ j (by omega), ← Nat.add_assoc]
        exact hfirst x hx'
      · have hthere := hlast (x - min r.totalBlocks (1024 - r.offie)) (by omega)
        rwa [← tableEntry_next, show 1024 + (r₁.offie + (x - min r.totalBlocks (1024 - r.offie))) =
          r.offie + x by omega] at hthere

/-- Where no null pointer is fetched nothing is missing. -/
lemma noHole_of_fetches (h : StoreOk build strict s)
    (hrange : offset / blockSize + totalBlocks size ≤ 4100)
    (hall : ∀ ptr ∈ readFetches build s n size offset, ptr ≠ 0) :
    NoHole build s n (offset / blockSize) (totalBlocks size) := by
  unfold readFetches at hall
  generalize offset / blockSize = p at hall hrange ⊢
  generalize totalBlocks size = T at hall hrange ⊢
  have hdirect : ∀ x < min T (4 - p), direct s.objs n (0 + p + x) ≠ 0 := by
    intro x hx
    refine hall _ (List.mem_append_left _ ?_)
    rw [pointerFetches_eq]
    exact List.mem_map.mpr ⟨_, List.mem_range'_1.mpr (by omega), rfl⟩
  have hfirst := readPointers_loop build (direct s.objs n) 4 0
    (fun x => view build s (direct s.objs n (0 + p + x) - writeOffset))
    ⟨s.dev, p, T, 0, fun _ _ => 0⟩ (SameBlocks.refl h.device) fun x hx => by
      have hx' : x < min T (4 - p) := hx
      have hne : value build s (.ofBlock n (0 + p + x)) ≠ 0 := by
        rw [value_ofBlock_lt (by omega)]
        exact hdirect x hx'
      have hvalid := h.valid hne
      rw [value_ofBlock_lt (by omega)] at hvalid
      exact SameBlocks.fetches hvalid
  have hoffie : 0 < T → (readPointers build (direct s.objs n) 4 0
      ⟨s.dev, p, T, 0, fun _ _ => 0⟩).offie = p - 4 := fun hpos => readPointers_offie _ _ _ _ hpos
  have hrest : ∀ ptr ∈ indirectFetches build (indirect s.objs n) 4 0
      (readPointers build (direct s.objs n) 4 0 ⟨s.dev, p, T, 0, fun _ _ => 0⟩), ptr ≠ 0 :=
    fun ptr hptr => hall ptr (List.mem_append_right _ hptr)
  generalize readPointers build (direct s.objs n) 4 0 ⟨s.dev, p, T, 0, fun _ _ => 0⟩ = r
    at hfirst hoffie hrest
  have htot : r.totalBlocks = T - min T (4 - p) := hfirst.total
  obtain ⟨htables, hentries⟩ := indirects_mapped (indirect s.objs n) 4 0 r hfirst.dev
    (fun t ht hne => by
      rw [Nat.zero_add] at hne ⊢
      refine ⟨h.indirect_valid ht hne, fun e he hz => ?_⟩
      have hval : value build s (.entry n ⟨t, ht⟩ ⟨e, he⟩) =
          entry (view build s (indirect s.objs n t - writeOffset)) e := if_neg hne
      rw [← hval]
      exact h.valid (hval ▸ hz)) hrest
  simp only [Nat.zero_add] at htables
  refine ⟨fun i hi => ?_, fun j hj hpos hlt => ?_⟩
  · have hoff := hoffie (by omega)
    by_cases h4 : p + i < 4
    · have hne := hdirect i (by omega)
      rwa [Nat.zero_add, ← value_ofBlock_lt h4] at hne
    · have hdiv : (r.offie + (i - min T (4 - p))) / 1024 = (p + i - 4) / 1024 := by omega
      have hmod : (r.offie + (i - min T (4 - p))) % 1024 = (p + i - 4) % 1024 := by omega
      have hne := hentries (i - min T (4 - p)) (by omega)
      have ht := htables ((p + i - 4) / 1024) (by omega) (by omega) (by omega)
      rw [tableEntry, hdiv, hmod, Nat.zero_add] at hne
      rw [Ref.ofBlock_entry h4 (by omega), value, if_neg ht]
      exact hne
  · have hoff := hoffie hpos
    exact htables j hj (by omega) (by omega)

/-- With the cache a read asks for data blocks only exactly when it meets no hole. -/
theorem cached_iff (h : StoreOk .objfsCached strict s) (hn : InObjs n)
    (hrange : offset / blockSize + totalBlocks size ≤ 4100) :
    ReadsRight .objfsCached s n size offset ↔
      NoHole .objfsCached s n (offset / blockSize) (totalBlocks size) := by
  constructor
  · intro hr
    refine noHole_of_fetches h hrange fun ptr hptr hz => ?_
    have hpos := (hr.slots rfl ptr hptr).1
    rw [hz, writeOffset_eq] at hpos
    exact absurd hpos (by norm_num)
  · intro hno
    obtain ⟨dev, hread, -⟩ := objstoreRead_planned h hn (fun i hi => ⟨by omega, hno.mapped i hi⟩)
      (fun j hj hpos hlt => Or.inl (h.indirect_valid hj (hno.tables j hj hpos hlt)))
    refine ⟨⟨_, _, hread, by simp [pageBytes], fun k hk => ?_⟩, fun _ ptr hptr => ?_⟩
    · have hpage : k / 4096 < totalBlocks size := lt_totalBlocks.mpr (by omega)
      rw [pageBytes_get hk, contents, if_neg (hno.mapped _ hpage)]
    · have hvalid := fetches_valid h hn hrange hno ptr hptr
      rw [slot_tmod hvalid]
      exact ⟨hvalid.1, slot_bounds _⟩

end Cached

/-- When a read of an object with holes is right. -/
theorem reads_right_iff (build : Build) (s : Store) (n size offset : ℕ)
    (h : StoreOk build False s) (hrange : offset / blockSize + totalBlocks size ≤ 4100) :
    ReadsRight build s n size offset ↔
      InObjs n ∧ (build = .objfs → ZeroHoles s n size offset) ∧
        (build = .objfsCached →
          NoHole .objfsCached s n (offset / blockSize) (totalBlocks size)) := by
  by_cases hn : InObjs n
  · cases build with
    | objfs =>
      rw [uncached_iff h hn hrange]
      exact ⟨fun hz => ⟨hn, fun _ => hz, fun hb => absurd hb (by decide)⟩, fun hc => hc.2.1 rfl⟩
    | objfsCached =>
      rw [cached_iff h hn hrange]
      exact ⟨fun hno => ⟨hn, fun hb => absurd hb (by decide), fun _ => hno⟩, fun hc => hc.2.2 rfl⟩
  · refine ⟨fun hr => ?_, fun hc => absurd hc.1 hn⟩
    obtain ⟨s', bs, hread, -⟩ := hr.bytes
    rcases read_cases hread with ⟨hid, -⟩ | ⟨m, dev, hm, hin, -⟩
    · omega
    · obtain rfl : n = m := by omega
      exact absurd hin hn

section Examples

/-- A hole of a new object on an all-zero image, without the cache. -/
theorem reads_right_iff_blank : ReadsRight .objfs (created (objstoreInit blankDevice) 0 keyA) 0
    blockSize 0 := by
  have hempty := objstoreInit_empty blankDevice_blank
  have hok : StoreOk .objfs False (created (objstoreInit blankDevice) 0 keyA) :=
    hempty.createdOk (by decide)
  obtain ⟨disk, hdev, hblank⟩ := hempty.dev
  have hzero : (created (objstoreInit blankDevice) 0 keyA).dev.disk.image 0 = fun _ => 0 := by
    have hsame : (created (objstoreInit blankDevice) 0 keyA).dev =
      (objstoreInit blankDevice).dev := rfl
    rw [hsame, hdev]
    exact hblank.zero 0
  refine (reads_right_iff .objfs _ 0 blockSize 0 hok (by decide)).mpr
    ⟨by decide, fun _ k hk _ => ?_, fun hb => absurd hb (by decide)⟩
  have hblock : 0 / blockSize + k / blockSize < 4 := by
    have hk' : k < 4096 := hk
    show 0 / 4096 + k / 4096 < 4
    omega
  rw [holePage, if_pos (Or.inl hblock), hzero]

/-- With the cache the hole is a cell before the cache. -/
theorem hole_before_cache : ¬∀ (s : Store) (n size offset : ℕ), StoreOk .objfsCached True s →
    s.live n = true → InObjs n → offset % blockSize = 0 →
    offset / blockSize + totalBlocks size ≤ 4100 → ReadsRight .objfsCached s n size offset := by
  intro hclaim
  have hempty := objstoreInit_empty blankDevice_blank
  have hok : StoreOk .objfsCached True (created (objstoreInit blankDevice) 0 keyA) :=
    hempty.createdOk (by decide)
  have hright := hclaim _ 0 blockSize 0 hok (by simp [live_created])
    (by decide) (by decide) (by decide)
  have hno := (cached_iff hok (by decide) (by decide)).mp hright
  exact hno.mapped 0 (by decide) (hempty.createdValue (by decide) _)

end Examples

end OsAssignments.Holes
