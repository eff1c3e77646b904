import OsAssignments.Accounts

/-!
# Writing a block of an object

`objstore_write` takes the first free data block and hangs it under the object at
one of three places: a direct pointer, an entry of an indirect block that exists,
or an entry of an indirect block taken for it. Each of the three is one update of
the store, and all of them fill one logical block and disturb no other.
-/
namespace OsAssignments

open ByteMemory Bitmap ObjectTable Builds
open BlockCache (ValidBlock)

variable {build : Build} {strict : Prop} {s s' : Store} {n k l e z b t : ℕ} {p : Block}

theorem searchFree_some (h : FirstFree s.bitMapData dataBits b) : searchFree s = some (foundAt b) :=
  scan_free dataWords h

theorem searchFree_none (h : freeBits s.bitMapData dataBits = ∅) : searchFree s = none :=
  scan_full dataWords h

section Posts

variable (build : Build) (s : Store) (n k l e size b t : ℕ) (page : Block)

/-- The store once data block `b` is taken and written for the object in slot `n`. -/
def placed : Store :=
  { s.markDirty n with
    bitMapData := setBit s.bitMapData b
    dev := storeBlock build s.dev b page }

/-- Block `b` hung at direct pointer `k`. -/
def hungDirect : Store :=
  { placed build s n b page with
    objs := setSize (setPointer s.objs n k (writeOffset + b)) n (objSize s.objs n + size) }

/-- Block `b` hung at entry `e` of the indirect block of `indirect[l]`. -/
def hungEntry : Store :=
  let p := placed build s n b page
  let ind := indirect s.objs n l - writeOffset
  { p with
    dev := storeBlock build (loadBlock build p.dev ind).1 ind
      (setEntry (view build s ind) e (writeOffset + b))
    objs := setSize s.objs n (objSize s.objs n + size) }

/-- Block `b` hung at entry `e` of the new indirect block `t` of `indirect[l]`. -/
def hungTable : Store :=
  let p := placed build s n b page
  { p with
    bitMapData := setBit p.bitMapData t
    dev := storeBlock build p.dev t (setEntry (fun _ => 0) e (writeOffset + b))
    objs := setSize (setPointer s.objs n (4 + l) (writeOffset + t)) n (objSize s.objs n + size) }

end Posts

section Outcomes

variable {buf : Memory} {offset : ℕ} {objid : ℤ}

lemma pointerOf_lt (hk : k < 4100) : pointerOf k < 8 := by
  unfold pointerOf
  split_ifs <;> omega

/-- The pointers of a record lie inside it. -/
lemma pointerInObjs (hn : InObjs n) (hk : k < 4100) : PointerInObjs n k := by
  have hlt := pointerOf_lt hk
  have hin : 96 * n + 96 ≤ objectBlock * blockSize := hn
  unfold PointerInObjs
  omega

theorem objstoreWriteAt_out (hout : ¬StartInBounds s n z) :
    objstoreWriteAt build s (n + 2) buf z offset = none := by
  have hid : ¬((n : ℤ) + 2 < 2) := by omega
  have hn : ((n : ℤ) + 2 - 2).toNat = n := by omega
  rw [objstoreWriteAt, if_neg hid]
  simp only [hn, if_neg hout]

theorem objstoreWriteAt_full (hfull : freeBits s.bitMapData dataBits = ∅)
    (hin : StartInBounds s n z) : objstoreWriteAt build s (n + 2) buf z offset =
      some ({ s.markDirty n with lockData := true }, -1) := by
  have hid : ¬((n : ℤ) + 2 < 2) := by omega
  have hn : ((n : ℤ) + 2 - 2).toNat = n := by omega
  have hsearch : searchFree (s.markDirty n) = none := searchFree_none hfull
  rw [objstoreWriteAt, if_neg hid]
  simp only [hn, if_pos hin, hsearch]

theorem objstoreWriteAt_found (hb : FirstFree s.bitMapData dataBits b)
    (hin : StartInBounds s n z) : objstoreWriteAt build s (n + 2) buf z offset =
      if PointerInObjs n (offset / blockSize) then
        some (if offset / blockSize < 4 then
            writeDirect (placed build s n b (bufferPage buf z)) n (offset / blockSize) z b
          else writeIndirect build (placed build s n b (bufferPage buf z)) n (offset / blockSize)
            z b, (z : ℤ))
      else none := by
  have hid : ¬((n : ℤ) + 2 < 2) := by omega
  have hn : ((n : ℤ) + 2 - 2).toNat = n := by omega
  have hsearch : searchFree (s.markDirty n) = some (foundAt b) := searchFree_some hb
  rw [objstoreWriteAt, if_neg hid]
  simp only [hn, if_pos hin, hsearch, foundAt_index, orWord_foundAt]
  rfl

/-- At the blocks of the object both are the same. -/
theorem objstoreWrite_at (hk : offset / blockSize < 4100) :
    objstoreWrite build s objid buf z offset = objstoreWriteAt build s objid buf z offset :=
  if_pos (Or.inr hk)

theorem objstoreWrite_reserved (hid : objid < 2) :
    objstoreWrite build s objid buf z offset = some (s, -1) := by
  rw [objstoreWrite, if_pos (Or.inl hid), objstoreWriteAt, if_pos hid]

theorem objstoreWrite_full (hfull : freeBits s.bitMapData dataBits = ∅)
    (hin : WriteInBounds s n (offset / blockSize) z) :
    objstoreWrite build s (n + 2) buf z offset =
      some ({ s.markDirty n with lockData := true }, -1) := by
  obtain ⟨hsize, hn, hk, hlock⟩ := hin
  rw [objstoreWrite_at hk, objstoreWriteAt_full hfull ⟨hsize, hn, hlock⟩]

theorem objstoreWrite_eq (hb : FirstFree s.bitMapData dataBits b)
    (hin : WriteInBounds s n (offset / blockSize) z) :
    objstoreWrite build s (n + 2) buf z offset =
      some (if offset / blockSize < 4 then
          writeDirect (placed build s n b (bufferPage buf z)) n (offset / blockSize) z b
        else writeIndirect build (placed build s n b (bufferPage buf z)) n (offset / blockSize)
          z b, (z : ℤ)) := by
  obtain ⟨hsize, hn, hk, hlock⟩ := hin
  rw [objstoreWrite_at hk, objstoreWriteAt_found hb ⟨hsize, hn, hlock⟩,
    if_pos (pointerInObjs hn hk)]

theorem objstoreWrite_out (hout : ¬WriteInBounds s n (offset / blockSize) z) :
    objstoreWrite build s (n + 2) buf z offset = none := by
  have hid : ¬((n : ℤ) + 2 < 2) := by omega
  by_cases hk : offset / blockSize < 4100
  · rw [objstoreWrite_at hk, objstoreWriteAt_out fun h => hout ⟨h.1, h.2.1, hk, h.2.2⟩]
  · rw [objstoreWrite, if_neg fun h => h.elim hid hk]

/-- A write that returns stayed inside the mappings. -/
theorem objstoreWrite_inBounds {x : Store × ℤ}
    (h : objstoreWrite build s (n + 2) buf z offset = some x) :
    WriteInBounds s n (offset / blockSize) z := by
  by_contra hout
  rw [objstoreWrite_out hout] at h
  contradiction

end Outcomes

section Equations

lemma writeDirect_fresh (hk : k < 4) (hv : direct s.objs n k = 0) :
    writeDirect (placed build s n b p) n k z b = hungDirect build s n k z b p := by
  have hp : direct (placed build s n b p).objs n k = 0 := hv
  rw [writeDirect, if_pos hp, hungDirect]
  simp only [placed, Store.markDirty, objSize_setPointer (show k < 8 by omega)]

lemma writeIndirect_new (hv : indirect s.objs n ((k - 4) / 1024) = 0) (hk : k < 4100)
    (ht : FirstFree (setBit s.bitMapData b) dataBits t) :
    writeIndirect build (placed build s n b p) n k z b =
      hungTable build s n ((k - 4) / 1024) ((k - 4) % 1024) z b t p := by
  have hp : indirect (placed build s n b p).objs n ((k - 4) / 1024) = 0 := hv
  have hsearch : searchFree (placed build s n b p) = some (foundAt t) := searchFree_some ht
  have hl : 4 + (k - 4) / 1024 < 8 := by omega
  simp only [writeIndirect, if_pos hp]
  simp only [writeNewIndirect, hsearch, foundAt_index, orWord_foundAt]
  simp only [hungTable, placed, Store.markDirty, objSize_setPointer hl]

end Equations

section Views

variable (hok : (device build).Ok s.dev) (hb : b < dataBits)
include hok hb

lemma placed_ok : (device build).Ok (placed build s n b p).dev :=
  storeBlock_ok hok (validBlock_ofNat hb)

lemma placed_view {x : ℤ} (hx : ValidBlock x) :
    view build (placed build s n b p) x = if x = b then p else view build s x :=
  storeBlock_view hok (validBlock_ofNat hb) hx

lemma hungDirect_ok : (device build).Ok (hungDirect build s n k z b p).dev :=
  placed_ok (n := n) hok hb

lemma hungDirect_view {x : ℤ} (hx : ValidBlock x) :
    view build (hungDirect build s n k z b p) x = if x = b then p else view build s x :=
  placed_view (n := n) hok hb hx

lemma hungTable_ok (ht : t < dataBits) :
    (device build).Ok (hungTable build s n l e z b t p).dev :=
  storeBlock_ok (placed_ok hok hb) (validBlock_ofNat ht)

lemma hungTable_view (ht : t < dataBits) {x : ℤ} (hx : ValidBlock x) :
    view build (hungTable build s n l e z b t p) x =
      if x = t then setEntry (fun _ => 0) e (writeOffset + b)
      else if x = b then p else view build s x := by
  rw [← placed_view (n := n) hok hb hx]
  exact storeBlock_view (placed_ok hok hb) (validBlock_ofNat ht) hx

variable (hind : ValidBlock (indirect s.objs n l - writeOffset))
include hind

lemma hungEntry_ok : (device build).Ok (hungEntry build s n l e z b p).dev :=
  storeBlock_ok (loadBlock_ok (placed_ok hok hb) (Or.inl hind)) hind

lemma hungEntry_view {x : ℤ} (hx : ValidBlock x) :
    view build (hungEntry build s n l e z b p) x =
      if x = indirect s.objs n l - writeOffset then
        setEntry (view build s (indirect s.objs n l - writeOffset)) e (writeOffset + b)
      else if x = b then p else view build s x := by
  have hplaced := placed_ok (n := n) (p := p) hok hb
  have hload : view build (placed build s n b p) x = _ :=
    (loadBlock_view hplaced (Or.inl hind) hx).symm
  rw [← placed_view (n := n) hok hb hx, hload]
  exact storeBlock_view (loadBlock_ok hplaced (Or.inl hind)) hind hx

end Views

section Values

/-- Pointers are 32-bit integers, wide enough for every block. -/
lemma position_bounds (hb : b < dataBits) :
    -2 ^ 31 ≤ writeOffset + b ∧ writeOffset + b < 2 ^ 31 := by
  rw [dataBits_eq] at hb
  have := writeOffset_eq
  constructor <;> omega

/-- An indirect block is read as it was before the data block was written. -/
lemma load_placed_of (hok : (device build).Ok s.dev) (hb : b < dataBits) {m : ℕ} {x : ℤ}
    (hx : ValidBlock x) (hne : x ≠ b) :
    (loadBlock build (placed build s m b p).dev x).2 = view build s x := by
  rw [loadBlock_val (placed_ok hok hb) hx]
  exact (placed_view hok hb hx).trans (if_neg hne)

section Hung

variable (h : StoreOk build strict s) (hlt : b < dataBits) (hb : bit s.bitMapData b = false)
include h hlt hb

/-- Indirect blocks are in use, so taking a free block leaves them alone. -/
lemma load_placed {m : ℕ} (hl : l < 4) (hne : indirect s.objs n l ≠ 0) :
    (loadBlock build (placed build s m b p).dev (indirect s.objs n l - writeOffset)).2 =
      view build s (indirect s.objs n l - writeOffset) :=
  load_placed_of h.device hlt (h.indirect_valid hl hne) (h.indirect_ne_free hl hne hb)

theorem hungDirect_value (hk : k < 4) :
    value build (hungDirect build s n k z b p) =
      Function.update (value build s) (.pointer n ⟨k, by omega⟩) (writeOffset + b) := by
  have hp : ∀ n' j, j < 8 → pointer (hungDirect build s n k z b p).objs n' j =
      if n = n' ∧ k = j then writeOffset + b else pointer s.objs n' j := by
    intro n' j hj
    rw [hungDirect, pointer_setSize hj, pointer_setPointer (by omega) hj (position_bounds hlt)]
  funext r
  cases r with
  | pointer n' j =>
    simp only [value, hp n' j j.isLt, Function.update_apply, Ref.pointer.injEq, Fin.ext_iff]
    simp only [eq_comm (a := n), eq_comm (a := k)]
  | entry n' l' e' =>
    rw [Function.update_of_ne (by simp)]
    refine value_entry_congr ((hp n' (4 + l') (by omega)).trans (if_neg (by omega))) fun hz => ?_
    rw [hungDirect_view h.device hlt (h.indirect_valid l'.isLt hz),
      if_neg (h.indirect_ne_free l'.isLt hz hb)]

theorem hungEntry_value (hl : l < 4) (he : e < 1024) (hne : indirect s.objs n l ≠ 0) :
    value build (hungEntry build s n l e z b p) =
      Function.update (value build s) (.entry n ⟨l, hl⟩ ⟨e, he⟩) (writeOffset + b) := by
  have hp : ∀ n' j, j < 8 →
      pointer (hungEntry build s n l e z b p).objs n' j = pointer s.objs n' j := by
    intro n' j hj
    rw [hungEntry, pointer_setSize hj]
  have hind := h.indirect_valid hl hne
  funext r
  cases r with
  | pointer n' j =>
    rw [Function.update_of_ne (by simp)]
    exact hp n' j j.isLt
  | entry n' l' e' =>
    by_cases hz : indirect s.objs n' l' = 0
    · have hother : (Ref.entry n' l' e') ≠ .entry n ⟨l, hl⟩ ⟨e, he⟩ := by
        rintro hr
        rw [Ref.entry.injEq] at hr
        rw [hr.1, hr.2.1] at hz
        exact hne hz
      rw [Function.update_of_ne hother]
      exact value_entry_congr (hp n' (4 + l') (by omega)) fun hz' => absurd hz hz'
    · have hview := hungEntry_view (e := e) (z := z) (p := p) h.device hlt hind
        (h.indirect_valid l'.isLt hz)
      rw [if_neg (h.indirect_ne_free l'.isLt hz hb)] at hview
      by_cases hsame : n' = n ∧ (l' : ℕ) = l
      · obtain ⟨rfl, hl'⟩ := hsame
        rw [hl', if_pos rfl] at hview
        have hi : indirect (hungEntry build s n' l e z b p).objs n' l ≠ 0 := by
          rw [indirect, hp n' (4 + l) (by omega)]
          exact hne
        have hentry := entry_setEntry (b := view build s (indirect s.objs n' l - writeOffset))
          (e := e) e'.isLt (position_bounds hlt)
        simp only [value, hl', Function.update_apply, Ref.entry.injEq, Fin.ext_iff, true_and]
        rw [if_neg hi, if_neg hne, indirect, hp n' (4 + l) (by omega), hview, hentry]
        simp only [eq_comm (a := e)]
      · have hother : (Ref.entry n' l' e') ≠ .entry n ⟨l, hl⟩ ⟨e, he⟩ := by
          rintro hr
          rw [Ref.entry.injEq, Fin.ext_iff] at hr
          exact hsame ⟨hr.1, hr.2.1⟩
        rw [Function.update_of_ne hother]
        refine value_entry_congr (hp n' (4 + l') (by omega)) fun _ => hview.trans (if_neg ?_)
        intro heq
        exact hsame (h.indirect_inj l'.isLt hl hz (by omega))

/-- The new indirect block has the new entry and no other. -/
theorem hungTable_value (hl : l < 4) (he : e < 1024) (hz : indirect s.objs n l = 0)
    (htlt : t < dataBits) (ht : bit (setBit s.bitMapData b) t = false) :
    value build (hungTable build s n l e z b t p) =
      Function.update (Function.update (value build s) (.pointer n ⟨4 + l, by omega⟩)
        (writeOffset + t)) (.entry n ⟨l, hl⟩ ⟨e, he⟩) (writeOffset + b) := by
  have ht' : bit s.bitMapData t = false := by
    rw [bit_setBit, Bool.or_eq_false_iff] at ht
    exact ht.1
  have hp : ∀ n' j, j < 8 → pointer (hungTable build s n l e z b t p).objs n' j =
      if n = n' ∧ 4 + l = j then writeOffset + t else pointer s.objs n' j := by
    intro n' j hj
    rw [hungTable, pointer_setSize hj, pointer_setPointer (by omega) hj (position_bounds htlt)]
  funext r
  cases r with
  | pointer n' j =>
    rw [Function.update_of_ne (by simp)]
    simp only [value, hp n' j j.isLt, Function.update_apply, Ref.pointer.injEq, Fin.ext_iff]
    simp only [eq_comm (a := n), eq_comm (a := 4 + l)]
  | entry n' l' e' =>
    by_cases hsame : n' = n ∧ (l' : ℕ) = l
    · obtain ⟨rfl, hl'⟩ := hsame
      have hi : indirect (hungTable build s n' l e z b t p).objs n' l = writeOffset + t :=
        (hp n' (4 + l) (by omega)).trans (if_pos ⟨rfl, rfl⟩)
      have hview := hungTable_view (n := n') (l := l) (e := e) (z := z) (p := p)
        h.device hlt htlt (validBlock_ofNat htlt)
      have hentry := entry_setEntry (b := fun _ => 0) (e := e) e'.isLt (position_bounds hlt)
      simp only [value, hl', Function.update_apply, Ref.entry.injEq, Fin.ext_iff, true_and,
        reduceCtorEq, if_false]
      rw [if_neg (hi ▸ position_ne_zero t), hi, position_sub,
        hview, if_pos rfl, hentry, entry_zero, if_pos hz]
      simp only [eq_comm (a := e)]
    · have hother : (Ref.entry n' l' e') ≠ .entry n ⟨l, hl⟩ ⟨e, he⟩ := by
        rintro hr
        rw [Ref.entry.injEq, Fin.ext_iff] at hr
        exact hsame ⟨hr.1, hr.2.1⟩
      rw [Function.update_of_ne hother, Function.update_of_ne (by simp)]
      refine value_entry_congr ((hp n' (4 + l') (by omega)).trans (if_neg ?_)) fun hz' => ?_
      · rintro ⟨rfl, hl'⟩
        exact hsame ⟨rfl, by omega⟩
      · rw [hungTable_view h.device hlt htlt (h.indirect_valid l'.isLt hz'),
          if_neg (h.indirect_ne_free l'.isLt hz' ht'), if_neg (h.indirect_ne_free l'.isLt hz' hb)]

end Hung

end Values

section Old

/-- The store after an entry of an indirect block was given a new block: what
`hungEntry` does to the disk, and the bit of the old entry toggled. -/
def swungEntry (build : Build) (s : Store) (n l e size b : ℕ) (page : Block) : Store :=
  { hungEntry build s n l e size b page with
    objs := s.objs
    bitMapData := toggleBit (setBit s.bitMapData b)
      (entry (view build s (indirect s.objs n l - writeOffset)) e) }

variable (h : StoreOk build strict s) (hlt : b < dataBits) (hb : bit s.bitMapData b = false)
include h hlt hb

lemma writeIndirect_old (hk : k < 4100) (hne : indirect s.objs n ((k - 4) / 1024) ≠ 0) :
    writeIndirect build (placed build s n b p) n k z b =
      if entry (view build s (indirect s.objs n ((k - 4) / 1024) - writeOffset))
        ((k - 4) % 1024) = 0
      then hungEntry build s n ((k - 4) / 1024) ((k - 4) % 1024) z b p
      else swungEntry build s n ((k - 4) / 1024) ((k - 4) % 1024) z b p := by
  have hp : ¬indirect (placed build s n b p).objs n ((k - 4) / 1024) = 0 := hne
  have hload := load_placed (m := n) (p := p) h hlt hb (by omega) hne
  simp only [writeIndirect, if_neg hp]
  simp only [writeOldIndirect, show (placed build s n b p).objs = s.objs from rfl, hload]
  rfl

end Old

/-- What writing logical block `k` of slot `n` does to the objects: the block is
data block `b` with contents `page`, the object is `grow` bytes longer, and every
other mapped block and every name is as it was. -/
structure Filled (build : Build) (s s' : Store) (n k grow b : ℕ) (page : Block) : Prop where
  data : ∀ r, r.IsData → value build s' r =
    if r = .ofBlock n k then writeOffset + b else value build s r
  here : view build s' b = page
  there : ∀ r, r.IsData → r ≠ .ofBlock n k → value build s r ≠ 0 →
    view build s' (value build s r - writeOffset) = view build s (value build s r - writeOffset)
  record : Resized s.objs s'.objs n grow
  inodes : s'.bitMapInode = s.bitMapInode
  lock : s'.lockData = s.lockData

/-- A write to a live object keeps the invariant when it keeps the accounts. -/
lemma StoreOk.of_resized {grow : ℕ} (h : StoreOk build strict s) (hlive : s.live n = true)
    (hdev : (Builds.device build).Ok s'.dev) (hacc : Accounts strict (value build s') s'.bitMapData)
    (hinodes : s'.bitMapInode = s.bitMapInode) (hr : Resized s.objs s'.objs n grow) :
    StoreOk build strict s' := by
  have hl : ∀ m, s'.live m = s.live m := fun m => by rw [Store.live, hinodes]; rfl
  refine ⟨hdev, hacc, fun m hm => ?_, fun m hm => ?_, fun m hm => h.slots m (hl m ▸ hm)⟩
  · rw [hl] at hm
    have hmn : m ≠ n := by
      rintro rfl
      rw [hlive] at hm
      contradiction
    obtain ⟨hz, hp⟩ := h.clean m hm
    exact ⟨(hr.sizes m hmn).trans hz, fun j hj => (hr.pointers m j hmn hj).trans (hp j hj)⟩
  · rw [hr.ids]
    exact h.ids m (hl m ▸ hm)

section Fresh

variable (h : StoreOk build strict s) (hlive : s.live n = true)
  (hb : FirstFree s.bitMapData dataBits b)
include h hlive hb

lemma hungDirect_spec (hk : k < 4) (hv : direct s.objs n k = 0) :
    StoreOk build strict (hungDirect build s n k z b p) ∧
      Filled build s (hungDirect build s n k z b p) n k z b p := by
  have hval := hungDirect_value (n := n) (z := z) (p := p) h hb.1 hb.clear hk
  have hview := fun {x : ℤ} => hungDirect_view (n := n) (k := k) (z := z) (p := p)
    (x := x) h.device hb.1
  have hrec : Resized s.objs (hungDirect build s n k z b p).objs n z :=
    .pointer s.objs n (by omega) _ z
  refine ⟨h.of_resized hlive (hungDirect_ok h.device hb.1) ?_ rfl hrec, fun r hr => ?_, ?_,
    fun r hr hne hz => ?_, hrec, rfl, rfl⟩
  · rw [hval]
    exact h.accounts.attach hb.1 hb.clear fun _ => hv
  · rw [hval, Function.update_apply, Ref.ofBlock_lt hk]
  · rw [hview (validBlock_ofNat hb.1), if_pos rfl]
  · rw [hview (h.valid hz), if_neg (h.value_ne_free hb.clear)]

lemma hungEntry_spec (hk : ¬k < 4) (hk' : k < 4100)
    (hne : indirect s.objs n ((k - 4) / 1024) ≠ 0) (hv : value build s (.ofBlock n k) = 0) :
    StoreOk build strict (hungEntry build s n ((k - 4) / 1024) ((k - 4) % 1024) z b p) ∧
      Filled build s (hungEntry build s n ((k - 4) / 1024) ((k - 4) % 1024) z b p)
        n k z b p := by
  have hl : (k - 4) / 1024 < 4 := by omega
  have he : (k - 4) % 1024 < 1024 := by omega
  have hind := h.indirect_valid hl hne
  have hval := hungEntry_value (z := z) (p := p) h hb.1 hb.clear hl he hne
  have hview := fun {x : ℤ} => hungEntry_view (n := n) (l := (k - 4) / 1024)
    (e := (k - 4) % 1024) (z := z) (p := p) (x := x) h.device hb.1 hind
  have hrec : Resized s.objs
      (hungEntry build s n ((k - 4) / 1024) ((k - 4) % 1024) z b p).objs n z :=
    .size s.objs n z
  rw [Ref.ofBlock_entry hk hk'] at hv
  refine ⟨h.of_resized hlive (hungEntry_ok h.device hb.1 hind) ?_ rfl hrec, fun r hr => ?_, ?_,
    fun r hr hne' hz => ?_, hrec, rfl, rfl⟩
  · rw [hval]
    exact h.accounts.attach hb.1 hb.clear fun _ => hv
  · rw [hval, Function.update_apply, Ref.ofBlock_entry hk hk']
  · rw [hview (validBlock_ofNat hb.1), if_neg (Ne.symm (h.indirect_ne_free hl hne hb.clear)),
      if_pos rfl]
  · rw [hview (h.valid hz), if_neg (h.value_ne_free hb.clear), if_neg]
    exact fun heq => h.data_ne_indirect hr hl hz (sub_left_injective heq)

lemma hungTable_spec (hk : ¬k < 4) (hk' : k < 4100)
    (hz : indirect s.objs n ((k - 4) / 1024) = 0)
    (ht : FirstFree (setBit s.bitMapData b) dataBits t) :
    StoreOk build strict (hungTable build s n ((k - 4) / 1024) ((k - 4) % 1024) z b t p) ∧
      Filled build s (hungTable build s n ((k - 4) / 1024) ((k - 4) % 1024) z b t p)
        n k z b p := by
  have hl : (k - 4) / 1024 < 4 := by omega
  have he : (k - 4) % 1024 < 1024 := by omega
  have hclear := ht.clear
  rw [bit_setBit, Bool.or_eq_false_iff, decide_eq_false_iff_not] at hclear
  have hbt : (b : ℤ) ≠ t := by exact_mod_cast hclear.2
  have hval := hungTable_value (z := z) (p := p) h hb.1 hb.clear hl he hz ht.1 ht.clear
  have hview := fun {x : ℤ} => hungTable_view (n := n) (l := (k - 4) / 1024)
    (e := (k - 4) % 1024) (z := z) (p := p) (x := x) h.device hb.1 ht.1
  have hrec : Resized s.objs
      (hungTable build s n ((k - 4) / 1024) ((k - 4) % 1024) z b t p).objs n z :=
    .pointer s.objs n (by omega) _ z
  have hempty : value build s (.entry n ⟨(k - 4) / 1024, hl⟩ ⟨(k - 4) % 1024, he⟩) = 0 := if_pos hz
  refine ⟨h.of_resized hlive (hungTable_ok h.device hb.1 ht.1) ?_ rfl hrec, fun r hr => ?_, ?_,
    fun r hr hne hz' => ?_, hrec, rfl, rfl⟩
  · have htable := h.accounts.attach (r := .pointer n ⟨4 + (k - 4) / 1024, by omega⟩) ht.1 hclear.1
      fun _ => hz
    have hb' : bit (setBit s.bitMapData t) b = false := by
      rw [bit_setBit, hb.clear, Bool.false_or, decide_eq_false_iff_not]
      exact Ne.symm hclear.2
    have hacc := htable.attach (r := .entry n ⟨(k - 4) / 1024, hl⟩ ⟨(k - 4) % 1024, he⟩) hb.1 hb'
      fun _ => (Function.update_of_ne (by simp) _ _).trans hempty
    rw [hval]
    refine ⟨hacc.range, hacc.ledger.congr_used fun x => ?_⟩
    simp only [hungTable, placed, bit_setBit, Bool.or_eq_true]
    exact or_right_comm
  · have hnp : r ≠ .pointer n ⟨4 + (k - 4) / 1024, by omega⟩ := by
      rintro rfl
      have hlt : 4 + (k - 4) / 1024 < 4 := hr
      omega
    rw [hval, Ref.ofBlock_entry hk hk', Function.update_apply, Function.update_of_ne hnp]
  · rw [hview (validBlock_ofNat hb.1), if_neg hbt, if_pos rfl]
  · rw [hview (h.valid hz'), if_neg (h.value_ne_free hclear.1), if_neg (h.value_ne_free hb.clear)]

end Fresh

section Hang

/-- Logical block `k` lies under an indirect pointer that has no block yet. -/
def NeedsTable (s : Store) (n k : ℕ) : Prop := ¬k < 4 ∧ indirect s.objs n ((k - 4) / 1024) = 0

instance (s : Store) (n k : ℕ) : Decidable (NeedsTable s n k) :=
  inferInstanceAs (Decidable (_ ∧ _))

/-- The free blocks a write of logical block `k` takes. -/
def writeCost (s : Store) (n k : ℕ) : ℕ := if NeedsTable s n k then 2 else 1

lemma one_le_writeCost (s : Store) (n k : ℕ) : 1 ≤ writeCost s n k := by
  unfold writeCost
  split_ifs <;> norm_num

lemma writeCost_le (s : Store) (n k : ℕ) : writeCost s n k ≤ 2 := by
  unfold writeCost
  split_ifs <;> norm_num

/-- The store after logical block `k` was given data block `b`, with `t` as the
indirect block where one is needed. -/
def hung (build : Build) (s : Store) (n k size b t : ℕ) (page : Block) : Store :=
  if k < 4 then hungDirect build s n k size b page
  else if indirect s.objs n ((k - 4) / 1024) = 0 then
    hungTable build s n ((k - 4) / 1024) ((k - 4) % 1024) size b t page
  else hungEntry build s n ((k - 4) / 1024) ((k - 4) % 1024) size b page

/-- The blocks a write finds free. -/
structure Picks (s : Store) (n k b t : ℕ) : Prop where
  data : FirstFree s.bitMapData dataBits b
  table : NeedsTable s n k → FirstFree (setBit s.bitMapData b) dataBits t

theorem exists_picks (hfree : writeCost s n k ≤ (freeBits s.bitMapData dataBits).card) :
    ∃ b t, Picks s n k b t := by
  obtain ⟨b, hb⟩ := exists_firstFree
    (Finset.card_pos.mp (Nat.lt_of_lt_of_le (one_le_writeCost s n k) hfree))
  by_cases hneed : NeedsTable s n k
  · rw [writeCost, if_pos hneed, ← card_freeBits_setBit hb.1 hb.clear] at hfree
    have hpos : 0 < (freeBits (setBit s.bitMapData b) dataBits).card := by omega
    obtain ⟨t, ht⟩ := exists_firstFree (Finset.card_pos.mp hpos)
    exact ⟨b, t, hb, fun _ => ht⟩
  · exact ⟨b, 0, hb, fun hn => absurd hn hneed⟩

variable {buf : Memory} {offset : ℕ}

/-- A write to an unmapped block of an object, in one update of the store. -/
theorem objstoreWrite_hung (h : StoreOk build strict s)
    (hin : WriteInBounds s n (offset / blockSize) z)
    (hv : value build s (.ofBlock n (offset / blockSize)) = 0)
    (hp : Picks s n (offset / blockSize) b t) :
    objstoreWrite build s (n + 2) buf z offset =
      some (hung build s n (offset / blockSize) z b t (bufferPage buf z), (z : ℤ)) := by
  obtain ⟨-, -, hk', -⟩ := id hin
  rw [objstoreWrite_eq hp.data hin, hung]
  split_ifs with hk hz
  · rw [writeDirect_fresh hk]
    rwa [value_ofBlock_lt hk] at hv
  · rw [writeIndirect_new hz hk' (hp.table ⟨hk, hz⟩)]
  · rw [writeIndirect_old h hp.data.1 hp.data.clear hk' hz, if_pos]
    rw [Ref.ofBlock_entry hk hk'] at hv
    simpa only [value, if_neg hz] using hv

theorem hung_spec (h : StoreOk build strict s) (hlive : s.live n = true) (hk' : k < 4100)
    (hv : value build s (.ofBlock n k) = 0) (hp : Picks s n k b t) :
    StoreOk build strict (hung build s n k z b t p) ∧
      Filled build s (hung build s n k z b t p) n k z b p := by
  unfold hung
  split_ifs with hk hz
  · exact hungDirect_spec h hlive hp.data hk (by rwa [value_ofBlock_lt hk] at hv)
  · exact hungTable_spec h hlive hp.data hk hk' hz (hp.table ⟨hk, hz⟩)
  · exact hungEntry_spec h hlive hp.data hk hk' hz hv

theorem hung_bitMapData : (hung build s n k z b t p).bitMapData =
    if NeedsTable s n k then setBit (setBit s.bitMapData b) t else setBit s.bitMapData b := by
  unfold hung
  by_cases hk : k < 4
  · rw [if_pos hk, if_neg fun hn => hn.1 hk]
    rfl
  · by_cases hz : indirect s.objs n ((k - 4) / 1024) = 0
    · rw [if_neg hk, if_pos hz, if_pos ⟨hk, hz⟩]
      rfl
    · rw [if_neg hk, if_neg hz, if_neg fun hn => hz hn.2]
      rfl

theorem hung_free (hp : Picks s n k b t) :
    (freeBits (hung build s n k z b t p).bitMapData dataBits).card + writeCost s n k =
      (freeBits s.bitMapData dataBits).card := by
  have hb := card_freeBits_setBit hp.data.1 hp.data.clear
  rw [hung_bitMapData, writeCost]
  split_ifs with hneed
  · have ht := card_freeBits_setBit (hp.table hneed).1 (hp.table hneed).clear
    omega
  · exact hb

/-- A write to an unmapped block of a live object, with enough blocks free. -/
theorem objstoreWrite_fresh (buf : Memory) (offset : ℕ) (h : StoreOk build strict s)
    (hlive : s.live n = true)
    (hin : WriteInBounds s n (offset / blockSize) z)
    (hv : value build s (.ofBlock n (offset / blockSize)) = 0)
    (hfree : writeCost s n (offset / blockSize) ≤ (freeBits s.bitMapData dataBits).card) :
    ∃ s' b, objstoreWrite build s (n + 2) buf z offset = some (s', (z : ℤ)) ∧
      StoreOk build strict s' ∧
      Filled build s s' n (offset / blockSize) z b (bufferPage buf z) ∧
      (freeBits s'.bitMapData dataBits).card + writeCost s n (offset / blockSize) =
        (freeBits s.bitMapData dataBits).card := by
  obtain ⟨b, t, hp⟩ := exists_picks hfree
  obtain ⟨hok, hfill⟩ := hung_spec (z := z) (p := bufferPage buf z) h hlive hin.2.2.1 hv hp
  exact ⟨_, b, objstoreWrite_hung h hin hv hp, hok, hfill, hung_free hp⟩

end Hang

section Rewrite

variable {buf : Memory} {offset : ℕ}

/-- Rewriting logical block `k` does no harm: it lies behind an indirect block, and
the bit that is toggled for the old block `t` is a data bit that nothing needs. The
toggled bit is numbered like the disk block, not like the data block. -/
def Rewritable (build : Build) (s : Store) (n k : ℕ) : Prop :=
  ∀ t : ℕ, t ≠ 0 → value build s (.ofBlock n k) = t →
    ¬k < 4 ∧ t < dataBits ∧ (∀ r : Ref, s.live r.slot = true → value build s r ≠ writeOffset + t) ∧
      ¬FirstFree s.bitMapData dataBits t

lemma swungEntry_value (h : StoreOk build strict s) (hb : FirstFree s.bitMapData dataBits b)
    (hk : ¬k < 4) (hk' : k < 4100) (hne : indirect s.objs n ((k - 4) / 1024) ≠ 0) :
    value build (swungEntry build s n ((k - 4) / 1024) ((k - 4) % 1024) z b p) =
      Function.update (value build s) (.ofBlock n k) (writeOffset + b) := by
  have hhung : value build (swungEntry build s n ((k - 4) / 1024) ((k - 4) % 1024) z b p) =
      value build (hungEntry build s n ((k - 4) / 1024) ((k - 4) % 1024) z b p) :=
    value_congr (fun _ _ hj => (pointer_setSize hj).symm) fun _ _ _ _ => rfl
  rw [hhung, hungEntry_value h hb.1 hb.clear (by omega) (by omega) hne, Ref.ofBlock_entry hk hk']

/-- A rewrite behind a table stores the block where it belongs, however it loses the old one. -/
theorem swungEntry_filled (h : StoreOk build False s) (hb : FirstFree s.bitMapData dataBits b)
    (hk : ¬k < 4) (hk' : k < 4100) (hne : indirect s.objs n ((k - 4) / 1024) ≠ 0) :
    (device build).Ok (swungEntry build s n ((k - 4) / 1024) ((k - 4) % 1024) z b p).dev ∧
      Filled build s (swungEntry build s n ((k - 4) / 1024) ((k - 4) % 1024) z b p) n k 0 b p := by
  have hl : (k - 4) / 1024 < 4 := by omega
  have hind := h.indirect_valid hl hne
  have hval := swungEntry_value (z := z) (p := p) h hb hk hk' hne
  have hview := fun {x : ℤ} => hungEntry_view (n := n) (l := (k - 4) / 1024)
    (e := (k - 4) % 1024) (z := z) (p := p) (x := x) h.device hb.1 hind
  refine ⟨hungEntry_ok (z := z) (p := p) h.device hb.1 hind, fun r hr => ?_, ?_,
    fun r hr hne' hz => ?_, .refl s.objs n, rfl, rfl⟩
  · rw [hval, Function.update_apply]
  · exact (hview (validBlock_ofNat hb.1)).trans ((if_neg (Ne.symm
      (h.indirect_ne_free hl hne hb.clear))).trans (if_pos rfl))
  · refine (hview (h.valid hz)).trans ((if_neg ?_).trans (if_neg (h.value_ne_free hb.clear)))
    exact fun heq => h.data_ne_indirect hr hl hz (sub_left_injective heq)

/-- The old bit is toggled where nothing needs it. -/
theorem swungEntry_spec (h : StoreOk build False s) (hlive : s.live n = true)
    (hb : FirstFree s.bitMapData dataBits b) (hk' : k < 4100)
    (hv : value build s (.ofBlock n k) ≠ 0) (hr : Rewritable build s n k) :
    ¬k < 4 ∧ indirect s.objs n ((k - 4) / 1024) ≠ 0 ∧
      StoreOk build False (swungEntry build s n ((k - 4) / 1024) ((k - 4) % 1024) z b p) ∧
      Filled build s (swungEntry build s n ((k - 4) / 1024) ((k - 4) % 1024) z b p)
        n k 0 b p := by
  obtain ⟨d, -, hd⟩ := h.accounts.range _ hv
  have hw := writeOffset_eq
  obtain ⟨hk, -, hneed, hfirst⟩ := hr (22815 + d) (by omega) (by rw [hd]; push_cast; omega)
  have hne := table_ne_zero hk hk' hv
  have hval := swungEntry_value (z := z) (p := p) h hb hk hk' hne
  have hold : entry (view build s (indirect s.objs n ((k - 4) / 1024) - writeOffset))
      ((k - 4) % 1024) = ((22815 + d : ℕ) : ℤ) := by
    rw [Ref.ofBlock_entry hk hk', value, if_neg hne] at hd
    rw [hd]
    push_cast
    omega
  obtain ⟨hdev, hfill⟩ := swungEntry_filled (z := z) (p := p) h hb hk hk' hne
  refine ⟨hk, hne, h.of_resized hlive hdev ?_ rfl hfill.record, hfill⟩
  have hbits : (swungEntry build s n ((k - 4) / 1024) ((k - 4) % 1024) z b p).bitMapData =
      toggleBit (setBit s.bitMapData b) ((22815 + d : ℕ) : ℤ) := by rw [swungEntry, hold]
  rw [hval, hbits]
  refine (h.accounts.attach hb.1 hb.clear fun hs => hs.elim).toggle fun r => ?_
  rw [Function.update_apply]
  split_ifs
  · intro he
    have hbd : b = 22815 + d := by exact_mod_cast add_left_cancel he
    exact hfirst (hbd ▸ hb)
  · intro he
    refine hneed r ?_ he
    by_contra hdead
    rw [h.value_dead (by simpa using hdead)] at he
    exact position_ne_zero _ he.symm

/-- A write to a block of a live object that is unmapped or safe to rewrite. -/
theorem objstoreWrite_filled (buf : Memory) (offset : ℕ) (h : StoreOk build False s)
    (hlive : s.live n = true)
    (hin : WriteInBounds s n (offset / blockSize) z)
    (hfree : writeCost s n (offset / blockSize) ≤ (freeBits s.bitMapData dataBits).card)
    (hr : Rewritable build s n (offset / blockSize)) :
    ∃ s' grow b, objstoreWrite build s (n + 2) buf z offset = some (s', (z : ℤ)) ∧
      StoreOk build False s' ∧
      Filled build s s' n (offset / blockSize) grow b (bufferPage buf z) := by
  by_cases hv : value build s (.ofBlock n (offset / blockSize)) = 0
  · obtain ⟨s', b, hw, hok, hfill, -⟩ := objstoreWrite_fresh buf offset h hlive hin hv hfree
    exact ⟨s', z, b, hw, hok, hfill⟩
  · obtain ⟨b, t, hp⟩ := exists_picks hfree
    obtain ⟨-, -, hk', -⟩ := id hin
    obtain ⟨hk, hne, hok, hfill⟩ := swungEntry_spec (z := z) (p := bufferPage buf z) h
      hlive hp.data hk' hv hr
    refine ⟨_, 0, b, ?_, hok, hfill⟩
    rw [Ref.ofBlock_entry hk hk', value, if_neg hne] at hv
    rw [objstoreWrite_eq hp.data hin, if_neg hk, writeIndirect_old h hp.data.1 hp.data.clear
      hk' hne,
      if_neg hv]

end Rewrite

end OsAssignments
