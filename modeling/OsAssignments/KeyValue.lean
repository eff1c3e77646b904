import OsAssignments.Names
import OsAssignments.Reading

/-!
# The object store as a finite map

Users put a value by creating an object and writing its pages in order, and get it
back by finding the object and reading it. Seen through these requests the store is
a map from keys to byte strings.
-/
namespace OsAssignments.KeyValue

open ByteMemory Bitmap ObjectTable Builds
open Machine (Along)

variable {build : Build} {s s' : Store} {key key' : CString} {n k i : ℕ} {v : List UInt8}

section Requests

inductive Request where
  | put (key : CString) (value : List UInt8)
  | get (key : CString)
  | getRange (key : CString) (offset size : ℕ)
  | lookup (key : CString)
  | rename (key newname : CString)
  | destroy (key : CString)
  | find (key : CString)

inductive Answer where
  | failed
  | done
  | bytes (value : List UInt8)
  | length (size : ℤ)
  deriving DecidableEq

/-- The number of bytes of `v` on page `i`. -/
def pageSize (v : List UInt8) (i : ℕ) : ℕ := min blockSize (v.length - blockSize * i)

/-- The caller's buffer for page `i` of `v`. -/
def pageBuffer (v : List UInt8) (i : ℕ) : Memory := fun x => v.getD (blockSize * i + x) 0

/-- The write of page `i` of `v`. -/
def pageWrite (objid : ℤ) (v : List UInt8) (i : ℕ) : Op :=
  .write objid (pageBuffer v i) (pageSize v i) (blockSize * i)

/-- The answer to a call that reports -1 when it fails. -/
def answerOf (reply : Reply) : Answer := if reply.ret = -1 then .failed else .done

/-- Find an object and go on with its number. -/
def withObject (build : Build) (s : Store) (key : CString)
    (next : Store → ℤ → Option (Store × Answer)) : Option (Store × Answer) :=
  (exec build s (.find key)).bind fun f =>
    if f.2.ret = -1 then some (f.1, .failed) else next f.1 f.2.ret

/-- The size that `fillup_size_details` reports for an object. -/
def withSize (build : Build) (s : Store) (objid : ℤ)
    (next : Store → ℤ → Option (Store × Answer)) : Option (Store × Answer) :=
  (exec build s (.stat objid.toNat)).bind fun f =>
    match f.2.details with
    | none => some (f.1, .failed)
    | some d => next f.1 d.1

/-- Read a range of an object. -/
def readRange (build : Build) (s : Store) (objid : ℤ) (offset size : ℕ) :
    Option (Store × Answer) :=
  (exec build s (.read objid size offset)).map fun r =>
    (r.1, if r.2.ret = (size : ℤ) then .bytes r.2.bytes else .failed)

/-- The calls a request makes, one after the other. -/
def serve (build : Build) (s : Store) : Request → Option (Store × Answer)
  | .put key v =>
    (exec build s (.create key)).bind fun c =>
      if c.2.ret = -1 then some (c.1, .failed)
      else
        let pages := List.range (totalBlocks v.length)
        (execAll build c.1 (pages.map (pageWrite c.2.ret v))).map fun w =>
          (w.1, if w.2.map Reply.ret = pages.map (fun i => (pageSize v i : ℤ)) then .done
            else .failed)
  | .get key => withObject build s key fun s objid =>
      withSize build s objid fun s size => readRange build s objid 0 size.toNat
  | .getRange key offset size => withObject build s key fun s objid =>
      readRange build s objid offset size
  | .lookup key => withObject build s key fun s objid =>
      withSize build s objid fun s size => some (s, .length size)
  | .rename key newname => (exec build s (.rename key newname)).map fun r => (r.1, answerOf r.2)
  | .destroy key => (exec build s (.destroy key)).map fun r => (r.1, answerOf r.2)
  | .find key => withObject build s key fun s _ => some (s, .done)

end Requests

section Map

/-- What the store is for: keys and their values. -/
abbrev Dict := CString → Option (List UInt8)

/-- The answers of a map. -/
def consult (m : Dict) : Request → Option (Dict × Answer)
  | .put key v => some (Function.update m key (some v), .done)
  | .get key =>
    match m key with
    | none => some (m, .failed)
    | some v => some (m, .bytes v)
  | .getRange key offset size =>
    match m key with
    | none => some (m, .failed)
    | some v => some (m, .bytes ((v.drop offset).take size))
  | .lookup key =>
    match m key with
    | none => some (m, .failed)
    | some v => some (m, .length v.length)
  | .rename key newname =>
    match m key with
    | none => some (m, .failed)
    | some v => some (Function.update (Function.update m key none) newname (some v), .done)
  | .destroy key =>
    match m key with
    | none => some (m, .failed)
    | some _ => some (Function.update m key none, .done)
  | .find key =>
    match m key with
    | none => some (m, .failed)
    | some _ => some (m, .done)

/-- What the callers guarantee: keys that fit their field, new names that are not in
use, values of at most 4100 blocks, and page-aligned ranges inside the value. -/
def Promised (m : Dict) : Request → Prop
  | .put key v => Fits key ∧ m key = none ∧ totalBlocks v.length ≤ 4100
  | .getRange key offset size =>
    Fits key ∧ blockSize ∣ offset ∧ ∀ v, m key = some v → offset + size ≤ v.length
  | .rename key newname => Fits key ∧ Fits newname ∧ m newname = none
  | .get key | .lookup key | .destroy key | .find key => Fits key

/-- The data blocks that the pages of a value take, and their indirect blocks. -/
def blocksNeeded (pages : ℕ) : ℕ := pages + (pages - 4 + 1023) / 1024

/-- Enough free inodes and data blocks for a request. -/
def Room (s : Store) : Request → Prop
  | .put _ v => (∃ n, InObjs n ∧ s.live n = false) ∧
      blocksNeeded (totalBlocks v.length) ≤ (freeBits s.bitMapData dataBits).card
  | _ => True

end Map

section Relation

/-- The first `i` pages of `v` are the logical blocks of slot `n`, and no others are mapped. -/
structure Pages (build : Build) (s : Store) (n : ℕ) (v : List UInt8) (i : ℕ) : Prop where
  size : objSize s.objs n = (min (blockSize * i) v.length : ℕ)
  mapped : ∀ k < i, value build s (.ofBlock n k) ≠ 0 ∧
    blockOf build s n k = bufferPage (pageBuffer v k) (pageSize v k)
  rest : ∀ k, i ≤ k → k < 4100 → value build s (.ofBlock n k) = 0

/-- Slot `n` stores the value `v`. -/
structure Stores (build : Build) (s : Store) (n : ℕ) (v : List UInt8) : Prop where
  slot : InObjs n
  bound : totalBlocks v.length ≤ 4100
  pages : Pages build s n v (totalBlocks v.length)

/-- The store holds the entries of the map and nothing else. -/
structure Represents (build : Build) (s : Store) (m : Dict) : Prop where
  names : NamesOk build s
  lock : s.lockData = false
  absent : ∀ key, Fits key → m key = none → ∀ n, s.named key n = false
  present : ∀ key v, Fits key → m key = some v → ∃ n, s.named key n = true ∧ Stores build s n v

/-- Pages are kept by what leaves the values and the blocks of the slot alone. -/
lemma Pages.congr (h : Pages build s n v i) (hsize : objSize s'.objs n = objSize s.objs n)
    (hval : ∀ k, value build s' (.ofBlock n k) = value build s (.ofBlock n k))
    (hview : ∀ k, value build s (.ofBlock n k) ≠ 0 →
      view build s' (value build s (.ofBlock n k) - writeOffset) =
        view build s (value build s (.ofBlock n k) - writeOffset)) : Pages build s' n v i := by
  refine ⟨hsize.trans h.size, fun k hk => ?_, fun k hk hk' => (hval k).trans (h.rest k hk hk')⟩
  obtain ⟨hne, hpage⟩ := h.mapped k hk
  refine ⟨(hval k).trans_ne hne, ?_⟩
  rw [blockOf, hval k, hview k hne]
  exact hpage

end Relation

section Bytes

/-- The pages of a value, read as bytes, are the value. -/
lemma pageBytes_value {p size : ℕ} (hsize : blockSize * p + size ≤ v.length) :
    pageBytes (fun j => bufferPage (pageBuffer v (p + j)) (pageSize v (p + j))) size =
      (v.drop (blockSize * p)).take size := by
  have hbound : 4096 * p + size ≤ v.length := hsize
  refine List.ext_getElem? fun x => ?_
  rw [pageBytes, List.getElem?_map, List.getElem?_take, List.getElem?_drop]
  split_ifs with hx
  · have hin : x % 4096 < pageSize v (p + x / 4096) := by
      show x % 4096 < min 4096 (v.length - 4096 * (p + x / 4096))
      omega
    have hplace : 4096 * (p + x / 4096) + x % 4096 = 4096 * p + x := by omega
    have hlt : 4096 * p + x < v.length := by omega
    rw [List.getElem?_range hx, Option.map_some]
    simp only [bufferPage, Fin.ofNat, if_pos hin, pageBuffer, hplace]
    rw [List.getD_eq_getElem _ _ hlt, List.getElem?_eq_getElem hlt]
  · rw [List.getElem?_eq_none (by simpa using hx), Option.map_none]

end Bytes

section Serving

variable {m : Dict} {next : Store → ℤ → Option (Store × Answer)}

/-- Searches and reads leave the values where they are. -/
lemma Stores.idle (h : Stores build s n v) (hok : StoreOk build True s) {dev : Device}
    {temp : Option ℕ} (hd : SameBlocks build s.dev dev) :
    Stores build { s with dev := dev, temp := temp } n v := by
  have hval : value build { s with dev := dev, temp := temp } = value build s := hd.value hok
  exact ⟨h.slot, h.bound, h.pages.congr rfl (fun _ => by rw [hval])
    fun k hne => hd.views _ (hok.valid hne)⟩

/-- Searches and reads leave the map as it is. -/
lemma Represents.idle (h : Represents build s m) {dev : Device} (temp : Option ℕ)
    (hd : SameBlocks build s.dev dev) :
    Represents build { s with dev := dev, temp := temp } m := by
  have hok := hd.storeOk h.names.store
  refine ⟨h.names.of_same (hok.recall temp)
    (fun _ => rfl) fun _ _ _ => rfl, h.lock, h.absent, fun key v hk hm => ?_⟩
  obtain ⟨n, hn, hst⟩ := h.present key v hk hm
  exact ⟨n, hn, hst.idle h.names.store hd⟩

lemma withObject_absent (h : Represents build s m) (hk : Fits key) (hm : m key = none) :
    withObject build s key next = some (s, .failed) := by
  rw [withObject, exec, findObjectId_none fun n _ => h.absent key hk hm n]
  rfl

lemma withObject_present (h : Represents build s m) (hk : Fits key) (hm : m key = some v) :
    ∃ n, s.named key n = true ∧ Stores build s n v ∧
      ∀ next, withObject build s key next = next { s with temp := some n } (n + 2) := by
  obtain ⟨n, hn, hst⟩ := h.present key v hk hm
  have hid := h.names.store.ids n (named_iff.mp hn).1
  refine ⟨n, hn, hst, fun next => ?_⟩
  rw [withObject, exec, findObjectId_some (h.names.keyAt_of hn), hid, Option.bind_some,
    if_neg (show ¬((n : ℤ) + 2 = -1) by omega)]

lemma withSize_eq (h : Represents build s m) (hn : s.named key n = true)
    (hst : Stores build s n v) :
    withSize build { s with temp := some n } (n + 2) next =
      next { s with temp := some n } v.length := by
  have hslot := inObjs_iff.mp hst.slot
  have hid := h.names.store.ids n (named_iff.mp hn).1
  have hsize : objSize s.objs n = v.length := by
    have hle : v.length ≤ blockSize * totalBlocks v.length := totalBlocks_le.mp le_rfl
    rw [hst.pages.size, min_eq_right hle]
  have hino : ((n : ℤ) + 2).toNat = n + 2 := by omega
  have hmatch : ¬(n + 2 < 2 ∨ ((n : ℤ) + 2) % 2 ^ 64 ≠ ((n + 2 : ℕ) : ℤ)) := by omega
  rw [withSize, exec, fillupSizeDetails, hino]
  simp only [hid, hsize, if_neg hmatch, Option.bind_some]

/-- A range of a stored value is read back. -/
lemma readRange_eq (h : Represents build s m) (hst : Stores build s n v) {offset size : ℕ}
    (halign : blockSize ∣ offset) (hrange : offset + size ≤ v.length) :
    ∃ dev, readRange build s (n + 2) offset size =
        some ({ s with dev := dev }, .bytes ((v.drop offset).take size)) ∧
      SameBlocks build s.dev dev := by
  obtain ⟨p, rfl⟩ := halign
  have hp : blockSize * p / blockSize = p := Nat.mul_div_cancel_left p (by norm_num)
  have hall : v.length ≤ blockSize * totalBlocks v.length := totalBlocks_le.mp le_rfl
  obtain ⟨dev, hr, hd⟩ := objstoreRead_written h.names.store hst.slot hst.bound
    (fun k hk => (hst.pages.mapped k hk).1) (hrange.trans hall)
  have hin : ∀ i < totalBlocks size, p + i < totalBlocks v.length := by
    intro i hi
    rw [lt_totalBlocks] at hi ⊢
    have hrange' : 4096 * p + size ≤ v.length := hrange
    omega
  rw [hp, pageBytes_congr fun i hi => (hst.pages.mapped _ (hin i hi)).2,
    pageBytes_value hrange] at hr
  exact ⟨dev, by rw [readRange, exec, hr, Option.map_some, Option.map_some, if_pos rfl], hd⟩

end Serving

section Changes

variable {m : Dict}

/-- A slot gets a name and a value, and the other slots keep theirs: the map gets one entry,
in the place of the one the slot had. -/
lemma Represents.assign (h : Represents build s m)
    (ha : Assigned s s' n key) (hnames : NamesOk build s') (hlock : s'.lockData = false)
    (hother : ∀ i v, i ≠ n → Stores build s i v → Stores build s' i v)
    (hst : Stores build s' n v) {m' : Dict} (hm' : m' key = some v)
    (hrest : ∀ k, k ≠ key → m' k = if s.named k n then none else m k) :
    Represents build s' m' := by
  refine ⟨hnames, hlock, fun k hk' hnone i => ?_, fun k w hk' hsome => ?_⟩
  · have hne : k ≠ key := by
      rintro rfl
      rw [hm'] at hnone
      contradiction
    rw [hrest k hne] at hnone
    by_cases hi : i = n
    · subst hi
      by_contra hnamed
      exact hne ((ha.self k).mp (by simpa using hnamed)).symm
    · rw [ha.other i k hi hk']
      by_cases hold : s.named k n = true
      · by_contra hnamed
        exact hi (h.names.unique k i n (by simpa using hnamed) hold)
      · rw [if_neg hold] at hnone
        exact h.absent k hk' hnone i
  · by_cases hkey : k = key
    · subst hkey
      rw [hm', Option.some.injEq] at hsome
      exact ⟨n, (ha.self k).mpr rfl, hsome ▸ hst⟩
    · rw [hrest k hkey] at hsome
      split_ifs at hsome with hold
      obtain ⟨i, hi, hsti⟩ := h.present k w hk' hsome
      have hne : i ≠ n := by
        rintro rfl
        exact hold hi
      exact ⟨i, by rwa [ha.other i k hne hk'], hother i w hne hsti⟩

end Changes

section Put

/-- The other objects are not disturbed by a write. -/
lemma Pages.filled_other {grow b j : ℕ} {page : Block} (h : Pages build s i v j) (hi : i ≠ n)
    (hf : Filled build s s' n k grow b page) : Pages build s' i v j := by
  have hne : ∀ x, Ref.ofBlock i x ≠ Ref.ofBlock n k := by
    intro x he
    have hslot := congrArg Ref.slot he
    rw [Ref.slot_ofBlock, Ref.slot_ofBlock] at hslot
    exact hi hslot
  refine h.congr (hf.record.sizes i hi) (fun x => ?_) fun x hx =>
    hf.there _ (Ref.isData_ofBlock i x) (hne x) hx
  rw [hf.data _ (Ref.isData_ofBlock i x), if_neg (hne x)]

/-- A write appends the next page. -/
lemma Pages.filled {b : ℕ} (h : Pages build s n v i) (hi : i < 4100)
    (hf : Filled build s s' n i (pageSize v i) b (bufferPage (pageBuffer v i) (pageSize v i))) :
    Pages build s' n v (i + 1) := by
  have hlen : min (4096 * i) v.length + pageSize v i = min (4096 * (i + 1)) v.length := by
    show min (4096 * i) v.length + min 4096 (v.length - 4096 * i) = _
    omega
  have hsize : min (4096 * i) v.length ≤ 4096 * 4100 := by omega
  have hgrow : pageSize v i ≤ 4096 := min_le_left _ _
  refine ⟨?_, fun k hk => ?_, fun k hk hk' => ?_⟩
  · rw [hf.record.grown _ h.size (by omega) (by push_cast; omega)]
    exact_mod_cast hlen
  · by_cases hki : k = i
    · subst hki
      have hval : value build s' (.ofBlock n k) = writeOffset + b := by
        rw [hf.data _ (Ref.isData_ofBlock n k), if_pos rfl]
      refine ⟨hval ▸ position_ne_zero b, ?_⟩
      rw [blockOf, hval, position_sub, hf.here]
    · have hne : Ref.ofBlock n k ≠ Ref.ofBlock n i := fun he =>
        hki (Ref.ofBlock_inj (by omega) hi he).2
      obtain ⟨hmapped, hpage⟩ := h.mapped k (by omega)
      have hval : value build s' (.ofBlock n k) = value build s (.ofBlock n k) := by
        rw [hf.data _ (Ref.isData_ofBlock n k), if_neg hne]
      refine ⟨hval ▸ hmapped, ?_⟩
      rw [blockOf, hval, hf.there _ (Ref.isData_ofBlock n k) hne hmapped]
      exact hpage
  · have hne : Ref.ofBlock n k ≠ Ref.ofBlock n i := fun he => by
      have := (Ref.ofBlock_inj hk' hi he).2
      omega
    rw [hf.data _ (Ref.isData_ofBlock n k), if_neg hne]
    exact h.rest k (by omega) hk'

/-- An indirect block is taken for the first page behind it only. -/
lemma Pages.cost (h : Pages build s n v i) (hi : i < 4100) :
    blocksNeeded i + writeCost s n i ≤ blocksNeeded (i + 1) := by
  rw [writeCost, blocksNeeded, blocksNeeded]
  split_ifs with hneed
  · obtain ⟨hk, hz⟩ := hneed
    have hfirst : (i - 4) % 1024 = 0 := by
      by_contra hmid
      have hmapped := (h.mapped (i - 1) (by omega)).1
      refine table_ne_zero (by omega) (by omega) hmapped ?_
      rwa [show (i - 1 - 4) / 1024 = (i - 4) / 1024 by omega]
    omega
  · omega

/-- Between the two stores the first `i` pages of `v` were written to slot `n`. -/
structure Putting (build : Build) (s s' : Store) (n : ℕ) (v : List UInt8) (i : ℕ) : Prop where
  ok : StoreOk build True s'
  pages : Pages build s' n v i
  others : ∀ m w j, m ≠ n → Pages build s m w j → Pages build s' m w j
  live : ∀ m, s'.live m = s.live m
  keys : ∀ m key, Fits key → keyIs s'.objs m key = keyIs s.objs m key
  lock : s'.lockData = false
  free : (freeBits s.bitMapData dataBits).card ≤
    (freeBits s'.bitMapData dataBits).card + blocksNeeded i

lemma Putting.step {s₀ : Store} (h : Putting build s₀ s n v i) (hlive : s₀.live n = true)
    (hslot : InObjs n) (hi : i < 4100)
    (hroom : blocksNeeded (i + 1) ≤ (freeBits s₀.bitMapData dataBits).card) :
    ∃ s', exec build s (pageWrite (n + 2) v i) = some (s', { ret := pageSize v i }) ∧
      Putting build s₀ s' n v (i + 1) := by
  have hdiv : blockSize * i / blockSize = i := Nat.mul_div_cancel_left i (by norm_num)
  have hcost := h.pages.cost hi
  have hfree := h.free
  obtain ⟨s', b, hw, hok, hfill, hcard⟩ := objstoreWrite_fresh (z := pageSize v i)
    (pageBuffer v i) (blockSize * i) h.ok ((h.live n).trans hlive)
    ⟨min_le_left _ _, hslot, hdiv.trans_lt hi, h.lock⟩
    (by rw [hdiv]; exact h.pages.rest i le_rfl hi) (by rw [hdiv]; omega)
  rw [hdiv] at hfill hcard
  refine ⟨s', by simp only [pageWrite, exec, hw, Option.map_some], hok, h.pages.filled hi hfill,
    fun m w j hm hp => (h.others m w j hm hp).filled_other hm hfill, fun m => ?_, fun m key hk =>
    (hfill.record.keys m key hk).trans (h.keys m key hk), hfill.lock.trans h.lock, by omega⟩
  rw [Store.live, hfill.inodes]
  exact h.live m

lemma Putting.run {s₀ : Store} (h : Putting build s₀ s₀ n v 0) (hlive : s₀.live n = true)
    (hslot : InObjs n) (hi : i ≤ 4100)
    (hroom : blocksNeeded i ≤ (freeBits s₀.bitMapData dataBits).card) :
    ∃ s', execAll build s₀ ((List.range i).map (pageWrite (n + 2) v)) =
        some (s', (List.range i).map fun j => { ret := pageSize v j }) ∧
      Putting build s₀ s' n v i := by
  induction i with
  | zero => exact ⟨s₀, rfl, h⟩
  | succ i ih =>
    obtain ⟨s, hrun, hput⟩ := ih (by omega) (by rw [blocksNeeded] at hroom ⊢; omega)
    obtain ⟨s', hexec, hput'⟩ := hput.step hlive hslot (by omega) hroom
    refine ⟨s', ?_, hput'⟩
    rw [List.range_succ, List.map_append, List.map_append]
    exact Machine.run_append.mpr ⟨s, _, _, hrun,
      Machine.run_cons.mpr ⟨s', _, [], hexec, rfl, rfl⟩, rfl⟩

end Put

section Answers

variable {m : Dict}

/-- The store answers a request as the map does, and represents the map after it. -/
def Answers (build : Build) (s : Store) (m : Dict) (r : Request) : Prop :=
  ∃ s' m' a, serve build s r = some (s', a) ∧ consult m r = some (m', a) ∧ Represents build s' m'

/-- An object for `key` was created in a free slot. -/
lemma Represents.create (h : Represents build s m) (hk : Fits key) (hm : m key = none)
    (hroom : ∃ n, InObjs n ∧ s.live n = false) :
    ∃ n, InObjs n ∧ s.live n = false ∧
      exec build s (.create key) = some (created s n key, { ret := (n + 2 : ℕ) }) ∧
      NamesOk build (created s n key) := by
  obtain ⟨x, hx, hdead⟩ := hroom
  have hlt : x < slotCount := by
    have := inObjs_iff.mp hx
    rw [slotCount_eq]
    omega
  obtain ⟨n, hle, hn⟩ := exists_firstBelow (p := fun j => !bit s.bitMapInode j) hlt
    (by simpa [Store.live] using hdead)
  have hslot := hx.mono hle
  refine ⟨n, hslot, FirstFree.clear hn, ?_, ?_⟩
  · rw [exec, createObject_eq hn, if_pos (keyInObjs hslot hk), Option.map_some]
  · exact assigned_ok h.names (created_assigned hk) hk (fun i _ => h.absent key hk hm i)
      (created_ok h.names.store hn.1 hk)

theorem serve_put (h : Represents build s m) (hp : Promised m (.put key v))
    (hr : Room s (.put key v)) : Answers build s m (.put key v) := by
  obtain ⟨hk, hm, hbound⟩ := hp
  obtain ⟨n, hslot, hdead, hcreate, hnames⟩ := h.create hk hm hr.1
  have hempty : Pages build (created s n key) n v 0 := by
    refine ⟨?_, fun k hk => absurd hk (Nat.not_lt_zero k), fun k _ _ => ?_⟩
    · rw [objSize_created hk, (h.names.store.clean n hdead).1, Nat.mul_zero, Nat.zero_min,
        Nat.cast_zero]
    · rw [value_created hk]
      exact h.names.store.value_dead (by simpa using hdead)
  have hstart : Putting build (created s n key) (created s n key) n v 0 :=
    ⟨hnames.store, hempty, fun _ _ _ _ hp => hp, fun _ => rfl, fun _ _ _ => rfl, h.lock,
      Nat.le_add_right _ _⟩
  obtain ⟨s', hrun, hput⟩ := hstart.run (by simp [live_created]) hslot hbound hr.2
  refine ⟨s', Function.update m key (some v), .done, ?_, rfl, ?_⟩
  · have hid : ¬((n + 2 : ℕ) : ℤ) = -1 := by omega
    have hcast : ((n + 2 : ℕ) : ℤ) = n + 2 := by push_cast; rfl
    have hrets : ((List.range (totalBlocks v.length)).map
        fun j => ({ ret := pageSize v j } : Reply)).map Reply.ret =
        (List.range (totalBlocks v.length)).map fun j => (pageSize v j : ℤ) := by
      rw [List.map_map]
      rfl
    simp only [serve, hcreate, Option.bind_some, if_neg hid]
    rw [hcast, hrun, Option.map_some, if_pos hrets]
  · have hnames' := hnames.of_same hput.ok hput.live hput.keys
    refine h.assign ((created_assigned hk).of_same hk hput.live hput.keys) hnames' hput.lock
      (fun i w hi hst => ⟨hst.slot, hst.bound, hput.others i w _ hi ?_⟩)
      ⟨hslot, hbound, hput.pages⟩ (Function.update_self _ _ _) fun k hkey => ?_
    · exact hst.pages.congr (objSize_created hk) (fun _ => by rw [value_created hk]) fun _ _ => rfl
    · have hnot : ¬s.named k n = true := fun hkn => by
        have hlive := (named_iff.mp hkn).1
        rw [hdead] at hlive
        contradiction
      rw [Function.update_of_ne hkey, if_neg hnot]

theorem serve_rename (h : Represents build s m) (hp : Promised m (.rename key key')) :
    Answers build s m (.rename key key') := by
  obtain ⟨hk, hk', hm'⟩ := hp
  cases hm : m key with
  | none =>
    refine ⟨s, m, .failed, ?_, by simp only [consult, hm], h⟩
    rw [serve, exec, renameObject_none fun n _ => h.absent key hk hm n]
    rfl
  | some v =>
    obtain ⟨n, hn, hst⟩ := h.present key v hk hm
    have hat := h.names.keyAt_of hn
    have hid := h.names.store.ids n hat.live
    refine ⟨renamed s n key', _, .done, ?_, by simp only [consult, hm]; rfl, ?_⟩
    · rw [serve, exec, renameObject_eq hat, if_pos (keyInObjs hst.slot hk'), hid, Option.map_some,
        Option.map_some, answerOf, if_neg (show ¬((n : ℤ) + 2 = -1) by omega)]
    · have ha := renamed_assigned hk' hat.live
      have hkept : ∀ i w, Stores build s i w → Stores build (renamed s n key') i w :=
        fun i w hst => ⟨hst.slot, hst.bound, hst.pages.congr (objSize_setKey hk')
          (fun _ => by rw [value_renamed hk']) fun _ _ => rfl⟩
      refine h.assign ha (assigned_ok h.names ha hk' (fun i _ => h.absent key' hk' hm' i)
        (renamed_ok h.names.store hk')) h.lock (fun i w _ => hkept i w) (hkept n v hst)
        (Function.update_self _ _ _) fun k hkey => ?_
      rw [Function.update_of_ne hkey, Function.update_apply]
      by_cases hkk : k = key
      · rw [if_pos hkk, if_pos (hkk ▸ hn)]
      · rw [if_neg hkk, if_neg fun hkn => hkk (named_inj hkn hn)]

theorem serve_destroy (h : Represents build s m) (hk : Fits key) :
    Answers build s m (.destroy key) := by
  cases hm : m key with
  | none =>
    refine ⟨s, m, .failed, ?_, by simp only [consult, hm], h⟩
    rw [serve, exec, destroyObject_none fun n _ => h.absent key hk hm n]
    rfl
  | some v =>
    obtain ⟨n, hn, hst⟩ := h.present key v hk hm
    have hat := h.names.keyAt_of hn
    have he := destroyed_emptied h.names.store hat.live
    have hnamed : ∀ k i, Fits k → (destroyed build s n).named k i =
      (s.named k i && decide (i ≠ n)) :=
      fun k i hk' => by
        rw [Store.named, Store.named, he.lives, he.keys i k hk', Bool.and_right_comm]
    refine ⟨destroyed build s n, _, .done, ?_, by simp only [consult, hm]; rfl, ?_⟩
    · rw [serve, exec, destroyObject_eq hat, if_pos hst.slot, Option.map_some, Option.map_some,
        answerOf, if_neg (by norm_num)]
    · refine ⟨(destroyed_names h.names hat).1, he.lock.trans h.lock, fun k hk' hnone i => ?_,
        fun k w hk' hsome => ?_⟩
      · rw [hnamed k i hk']
        by_cases hkk : k = key
        · by_cases hi : i = n
          · rw [decide_eq_false (by simpa using hi), Bool.and_false]
          · by_contra hki
            rw [Bool.not_eq_false, Bool.and_eq_true] at hki
            exact hi (h.names.unique key i n (hkk ▸ hki.1) hn)
        · rw [Function.update_of_ne hkk] at hnone
          rw [h.absent k hk' hnone i, Bool.false_and]
      · have hkk : k ≠ key := by
          rintro rfl
          rw [Function.update_self] at hsome
          contradiction
        rw [Function.update_of_ne hkk] at hsome
        obtain ⟨i, hi, hsti⟩ := h.present k w hk' hsome
        have hne : i ≠ n := fun hin => hkk (named_inj (hin ▸ hi) hn)
        refine ⟨i, by rw [hnamed k i hk', hi, decide_eq_true hne]; rfl, hsti.slot, hsti.bound,
          hsti.pages.congr (he.sizes i hne) (fun x => ?_) fun x hx => ?_⟩
        · rw [he.values, if_neg (by rwa [Ref.slot_ofBlock])]
        · exact he.views _ (by rwa [Ref.slot_ofBlock]) hx

/-- A request that searches for an object and then at most reads. -/
lemma search_answers (h : Represents build s m) (hk : Fits key) {r : Request}
    (next : Store → ℤ → Option (Store × Answer))
    (hserve : serve build s r = withObject build s key next)
    (hnone : m key = none → consult m r = some (m, .failed))
    (hsome : ∀ v n, m key = some v → s.named key n = true → Stores build s n v →
      ∃ dev a, next { s with temp := some n } (n + 2) =
          some ({ s with dev := dev, temp := some n }, a) ∧
        SameBlocks build s.dev dev ∧ consult m r = some (m, a)) : Answers build s m r := by
  cases hm : m key with
  | none => exact ⟨s, m, .failed, hserve.trans (withObject_absent h hk hm), hnone hm, h⟩
  | some v =>
    obtain ⟨n, hn, hst, hfound⟩ := withObject_present h hk hm
    obtain ⟨dev, a, hnext, hd, hconsult⟩ := hsome v n hm hn hst
    exact ⟨_, m, a, (hserve.trans (hfound next)).trans hnext, hconsult, h.idle _ hd⟩

theorem serve_find (h : Represents build s m) (hk : Fits key) : Answers build s m (.find key) := by
  refine search_answers h hk (fun s _ => some (s, .done)) rfl
    (fun hm => by simp only [consult, hm]) fun v n hm _ _ => ?_
  exact ⟨s.dev, .done, rfl, .refl h.names.store.device, by simp only [consult, hm]⟩

theorem serve_lookup (h : Represents build s m) (hk : Fits key) :
    Answers build s m (.lookup key) := by
  refine search_answers h hk (fun s objid => withSize build s objid fun s size =>
    some (s, .length size)) rfl (fun hm => by simp only [consult, hm]) fun v n hm hn hst => ?_
  exact ⟨s.dev, .length v.length, withSize_eq h hn hst, .refl h.names.store.device,
    by simp only [consult, hm]⟩

theorem serve_getRange (h : Represents build s m) {offset size : ℕ}
    (hp : Promised m (.getRange key offset size)) :
    Answers build s m (.getRange key offset size) := by
  obtain ⟨hk, halign, hrange⟩ := hp
  have hself : SameBlocks build s.dev s.dev := .refl h.names.store.device
  refine search_answers h hk (fun s objid => readRange build s objid offset size) rfl
    (fun hm => by simp only [consult, hm]) fun v n hm _ hst => ?_
  obtain ⟨dev, hread, hd⟩ := readRange_eq (h.idle (some n) hself)
    (hst.idle h.names.store hself) halign (hrange v hm)
  exact ⟨dev, _, hread, hd, by simp only [consult, hm]⟩

theorem serve_get (h : Represents build s m) (hk : Fits key) : Answers build s m (.get key) := by
  have hself : SameBlocks build s.dev s.dev := .refl h.names.store.device
  refine search_answers h hk (fun s objid => withSize build s objid fun s size =>
    readRange build s objid 0 size.toNat) rfl (fun hm => by simp only [consult, hm])
    fun v n hm hn hst => ?_
  obtain ⟨dev, hread, hd⟩ := readRange_eq (h.idle (some n) hself)
    (hst.idle h.names.store hself) (dvd_zero blockSize) (show 0 + v.length ≤ v.length by omega)
  rw [List.drop_zero, List.take_length] at hread
  refine ⟨dev, .bytes v, ?_, hd, by simp only [consult, hm]⟩
  rw [withSize_eq h hn hst, Int.toNat_natCast, hread]

/-- Every request is answered as the map answers it. -/
theorem serve_consult {r : Request} (h : Represents build s m) (hp : Promised m r)
    (hr : Room s r) : Answers build s m r := by
  cases r with
  | put key v => exact serve_put h hp hr
  | get key => exact serve_get h hp
  | getRange key offset size => exact serve_getRange h hp
  | lookup key => exact serve_lookup h hp
  | rename key newname => exact serve_rename h hp
  | destroy key => exact serve_destroy h hp
  | find key => exact serve_find h hp

end Answers

/-- A new store is the empty map. -/
lemma empty_represents {d : Device} (hs : Empty d s) : Represents build s fun _ => none := by
  refine ⟨empty_names hs, hs.lock, fun key _ _ n => ?_, fun key v _ hm => by contradiction⟩
  rw [Store.named, hs.live, Bool.false_and]

/-- From an empty disk on, every sequence of requests is answered as a finite map answers it. -/
theorem store_is_map (build : Build) (d : Device) (hd : Blank d) (reqs : List Request)
    (hreqs : Along consult Promised (fun _ => none) reqs)
    (hroom : Along (serve build) Room (objstoreInit d) reqs) :
    ∃ s m answers, Machine.run (serve build) (objstoreInit d) reqs = some (s, answers) ∧
      Machine.run consult (fun _ => none) reqs = some (m, answers) ∧ Represents build s m := by
  have hstep : ∀ s m r, Represents build s m → Room s r → Promised m r → Answers build s m r :=
    fun _ _ _ h hr hp => serve_consult h hp hr
  exact hroom.simulate hstep hreqs (empty_represents (objstoreInit_empty hd))

theorem store_is_map_put_get : ∃ s,
    Machine.run (serve .objfs) (objstoreInit blankDevice) [.put keyA [1, 2, 3], .get keyA] =
      some (s, [.done, .bytes [1, 2, 3]]) := by
  have hempty := objstoreInit_empty blankDevice_blank
  have hfits : Fits keyA := by decide
  have hroom : Room (objstoreInit blankDevice) (.put keyA [1, 2, 3]) := by
    refine ⟨⟨0, by decide, hempty.live 0⟩, ?_⟩
    rw [hempty.free]
    decide
  have hget : consult (Function.update (fun _ => none) keyA (some [1, 2, 3])) (.get keyA) =
      some (Function.update (fun _ => none) keyA (some [1, 2, 3]), .bytes [1, 2, 3]) := by
    simp only [consult, Function.update_self]
  have htrace : Machine.Trace consult Promised (fun _ => none) [.put keyA [1, 2, 3], .get keyA]
      (Function.update (fun _ => none) keyA (some [1, 2, 3])) [.done, .bytes [1, 2, 3]] :=
    .cons ⟨hfits, rfl, by decide⟩ rfl (.cons hfits hget (.nil _))
  obtain ⟨s, m, answers, hserve, hconsult, -⟩ := store_is_map .objfs blankDevice blankDevice_blank
    _ htrace.along ⟨hroom, fun _ _ _ => ⟨trivial, fun _ _ _ => trivial⟩⟩
  rw [htrace.run, Option.some.injEq, Prod.mk.injEq] at hconsult
  exact ⟨s, hconsult.2 ▸ hserve⟩

end OsAssignments.KeyValue
