import OsAssignments.Names
import OsAssignments.Reading
import OsAssignments.Remount
import OsAssignments.WriteCases

/-!
# Crashes

A crash loses what lies in memory: the table, the bitmaps and the cache. No call writes
the blocks of the table and of the bitmaps, so that the next mount finds what the last
unmount left there; with it come the objects that were not written or destroyed since.
-/
namespace OsAssignments.Crashes

open ByteMemory Bitmap ObjectTable Builds
open BlockCache (CacheOk ValidBlock cachedView findCache refill slot_bounds slot_tag writeBack
  writeBack_image writeBack_image_of_slot_ne)
open Machine (Along)

variable {build : Build} {s s' : Store} {n k : ℕ} {d d' d'' : Device} {K : Set ℤ} {b b' : ℤ}

section Devices

/-- The disk holds block `b` as it is seen. -/
def Settled (build : Build) (d : Device) (b : ℤ) : Prop :=
  d.disk.image (writeOffset + b) = (device build).view d b

/-- Settled blocks of `K` stay settled, and the disk holds what it held. -/
def Steady (build : Build) (K : Set ℤ) (d d' : Device) : Prop :=
  ∀ b ∈ K, ValidBlock b → Settled build d b →
    d'.disk.image (writeOffset + b) = d.disk.image (writeOffset + b) ∧ Settled build d' b

lemma Steady.refl (K : Set ℤ) (d : Device) : Steady build K d d := fun _ _ _ h => ⟨rfl, h⟩

lemma Steady.trans (h : Steady build K d d') (h' : Steady build K d' d'') :
    Steady build K d d'' := by
  intro b hK hb hs
  obtain ⟨himage, hs'⟩ := h b hK hb hs
  obtain ⟨himage', hs''⟩ := h' b hK hb hs'
  exact ⟨himage'.trans himage, hs''⟩

/-- A settled block that reads as before is settled when the disk still holds it. -/
lemma Settled.congr (h : Settled build d b)
    (himage : d'.disk.image (writeOffset + b) = d.disk.image (writeOffset + b))
    (hview : (device build).view d' b = (device build).view d b) : Settled build d' b := by
  rw [Settled, himage, hview]
  exact h

/-- An eviction writes what is there already. -/
lemma writeBack_settled (h : CacheOk d) (hb : ValidBlock b) (hs : Settled .objfsCached d b) :
    (writeBack d (b' % cacheBlocks)).disk.image (writeOffset + b) =
      d.disk.image (writeOffset + b) := by
  obtain ⟨hlo, hhi⟩ := slot_bounds b'
  by_cases hslot : b % cacheBlocks = b' % cacheBlocks
  · rw [writeBack_image h hb hslot]
    exact hs.symm
  · exact writeBack_image_of_slot_ne hlo hhi hslot

lemma loadBlock_steady (h : (device build).Ok d) (hb' : Readable build b') :
    Steady build K d (loadBlock build d b').1 := by
  intro b _ hb hs
  have himage : (loadBlock build d b').1.disk.image (writeOffset + b) =
      d.disk.image (writeOffset + b) := by
    cases build with
    | objfs => simp [loadBlock]
    | objfsCached =>
      have hvalid : ValidBlock b' := hb'.resolve_right (by decide)
      by_cases ht : d.cacheArray (b' % cacheBlocks) = b' / cacheBlocks
      · simp only [loadBlock, BlockCache.readCached_hit hvalid ht]
      · simp only [loadBlock, BlockCache.readCached_miss hvalid ht, refill, readBlock_image]
        exact writeBack_settled h hb hs
  exact ⟨himage, hs.congr himage (loadBlock_view h hb' hb)⟩

lemma storeBlock_steady (h : (device build).Ok d) (hb' : ValidBlock b') (hK : b' ∉ K)
    (buf : Block) : Steady build K d (storeBlock build d b' buf) := by
  intro b hbK hb hs
  have hne : b ≠ b' := fun he => hK (he ▸ hbK)
  have himage : (storeBlock build d b' buf).disk.image (writeOffset + b) =
      d.disk.image (writeOffset + b) := by
    cases build with
    | objfs => exact writeBlock_image_ne _ (by omega) _
    | objfsCached =>
      simp only [storeBlock, BlockCache.writeCached_eq hb', refill]
      exact writeBack_settled h hb hs
  refine ⟨himage, hs.congr himage ?_⟩
  rw [storeBlock_view h hb' hb, if_neg hne]

/-- A dropped block is settled when it was: the disk holds it. -/
lemma dropBlock_steady (b' : ℤ) : Steady build K d (dropBlock build d b') := by
  intro b _ hb hs
  refine ⟨by rw [dropBlock_disk], ?_⟩
  cases build with
  | objfs => exact hs
  | objfsCached =>
    have htag := (slot_tag hb).1
    have hview : d.disk.image (writeOffset + b) = cachedView d b := hs
    show (findCache d b').disk.image (writeOffset + b) = cachedView (findCache d b') b
    by_cases hfound : d.cacheArray (b'.tmod cacheBlocks) = b'.tdiv cacheBlocks
    · by_cases hslot : b % cacheBlocks = b'.tmod cacheBlocks
      · have hgone : (-1 : ℤ) ≠ b / cacheBlocks := by omega
        simp only [findCache, if_pos hfound, cachedView, hslot, Function.update_self,
          if_neg hgone]
      · simp only [findCache, if_pos hfound, cachedView, Function.update_of_ne hslot]
        exact hview
    · simp only [findCache, if_neg hfound]
      exact hview

end Devices

section Calls

/-- A range of mapped blocks, with the tables on the way. -/
def Mapped (build : Build) (s : Store) (n size offset : ℕ) : Prop :=
  InObjs n ∧ (∀ i < totalBlocks size, offset / blockSize + i < 4100 ∧
      value build s (.ofBlock n (offset / blockSize + i)) ≠ 0) ∧
    ∀ j < 4, 4 + 1024 * j < offset / blockSize + totalBlocks size →
      Readable build (indirect s.objs n j - writeOffset)

/-- The calls of the runs: unmapped blocks are written and mapped ones read. -/
def Call (build : Build) (s : Store) : Op → Prop
  | .find _ | .stat _ => True
  | .read objid size offset => objid < 2 ∨ ∃ n : ℕ, objid = n + 2 ∧ Mapped build s n size offset
  | op => Remount.Sound build s op

/-- The slots whose blocks a call gives back or adds to. -/
def altered (s : Store) : Op → List ℕ
  | .destroy key => (Remount.touched s (.destroy key)).toList
  | .write objid buf size offset => (Remount.touched s (.write objid buf size offset)).toList
  | _ => []

/-- The slots altered in a run. -/
def alteredAll (build : Build) : Store → List Op → List ℕ
  | _, [] => []
  | s, op :: ops => altered s op ++
      match exec build s op with
      | some (s', _) => alteredAll build s' ops
      | none => []

/-- The blocks of the slots outside `A`. -/
def blocksOutside (build : Build) (s : Store) (A : List ℕ) : Set ℤ :=
  {b | ∃ r : Ref, r.slot ∉ A ∧ value build s r = writeOffset + b}

/-- A call spares the objects outside `A`. -/
structure Spares (build : Build) (s s' : Store) (A : List ℕ) : Prop where
  ok : StoreOk build True s'
  low : ∀ p, p < writeOffset → s'.dev.disk.image p = s.dev.disk.image p
  values : ∀ r : Ref, r.slot ∉ A → value build s' r = value build s r
  steady : Steady build (blocksOutside build s A) s.dev s'.dev

section Destroy

variable {l m : ℕ}

lemma releaseDirect_steady (s : Store) (l : ℕ) :
    Steady build K s.dev (releaseDirect build n s l).dev := by
  unfold releaseDirect
  split_ifs
  · exact dropBlock_steady _
  · exact Steady.refl K _

lemma releaseEntries_steady (tem : Block) (es : List ℕ) (s : Store) :
    Steady build K s.dev (es.foldl (releaseEntry build tem) s).dev := by
  induction es generalizing s with
  | nil => exact Steady.refl K _
  | cons e es ih =>
    have hstep : Steady build K s.dev (releaseEntry build tem s e).dev := by
      unfold releaseEntry
      split_ifs
      · exact dropBlock_steady _
      · exact Steady.refl K _
    exact hstep.trans (ih _)

lemma releaseIndirect_steady (hok : (device build).Ok s.dev)
    (hvalid : indirect s.objs n l ≠ 0 → ValidBlock (indirect s.objs n l - writeOffset)) :
    Steady build K s.dev (releaseIndirect build n s l).dev := by
  unfold releaseIndirect
  generalize List.range 1024 = es
  split_ifs with hz
  · have hload := loadBlock_steady (K := K) hok (Or.inl (hvalid hz))
    have hentries : Steady build K _ (es.foldl (releaseEntry build
        (loadBlock build s.dev (indirect s.objs n l - writeOffset)).2)
        { s with dev := (loadBlock build s.dev (indirect s.objs n l - writeOffset)).1 }).dev :=
      releaseEntries_steady _ es _
    exact (hload.trans hentries).trans (dropBlock_steady _)
  · exact Steady.refl K _

lemma releaseDirects_steady (ls : List ℕ) (s : Store) :
    Steady build K s.dev (ls.foldl (releaseDirect build n) s).dev := by
  induction ls generalizing s with
  | nil => exact Steady.refl K _
  | cons l ls ih => exact (releaseDirect_steady s l).trans (ih _)

/-- A table that is not given back yet is a data block. -/
lemma table_valid {s₁ : Store} (h : Releasing build True s₁ n (entriesBelow n l 0) s) (hl : l < 4)
    (hz : indirect s.objs n l ≠ 0) : ValidBlock (indirect s.objs n l - writeOffset) := by
  have hnot : Ref.pointer n ⟨4 + l, by omega⟩ ∉ entriesBelow n l 0 := by simp [entriesBelow]
  have hval := h.pointers n ⟨4 + l, by omega⟩
  rw [without_of_not_mem hnot] at hval
  obtain ⟨b, hvalid, hb⟩ := h.block hnot (by rwa [← hval])
  have hind : indirect s.objs n l = writeOffset + b := hval.trans hb
  rw [hind, position_sub]
  exact hvalid

lemma releaseIndirects_steady {s₁ : Store}
    (h : Releasing build True s₁ n (entriesBelow n 0 0) s) (hm : m ≤ 4) :
    Steady build K s.dev ((List.range m).foldl (releaseIndirect build n) s).dev := by
  induction m with
  | zero => exact Steady.refl K _
  | succ m ih =>
    rw [List.range_succ, List.foldl_append, List.foldl_cons, List.foldl_nil]
    have hmid := h.indirects (m := m) (by omega)
    exact (ih (by omega)).trans
      (releaseIndirect_steady hmid.device (table_valid hmid (by omega)))

lemma destroyed_steady (h : StoreOk build True s) (n : ℕ) :
    Steady build K s.dev (destroyed build s n).dev := by
  have hacc : Accounts True (value build (unlinked s n)) (unlinked s n).bitMapData := by
    rw [value_unlinked]
    exact h.accounts
  have hstart : Releasing build True (unlinked s n) n ∅ (unlinked s n) := .start h.device hacc
  have hdirects := hstart.directs (m := 4) le_rfl
  rw [directsBelow_four] at hdirects
  have hfirst : Steady build K (unlinked s n).dev
      ((List.range 4).foldl (releaseDirect build n) (unlinked s n)).dev :=
    releaseDirects_steady (List.range 4) (unlinked s n)
  have hrest := releaseIndirects_steady (K := K) hdirects (m := 4) le_rfl
  rw [destroyed]
  exact hfirst.trans hrest

end Destroy

section Write

variable {t e z : ℕ} {p : Block}

lemma clear_outside (h : StoreOk build True s) (hb : bit s.bitMapData k = false) (A : List ℕ) :
    (k : ℤ) ∉ blocksOutside build s A := fun ⟨r, _, hr⟩ => h.accounts.ne_of_clear hb r hr

section Free

variable (h : StoreOk build True s) (hb : FirstFree s.bitMapData dataBits k)
include h hb

lemma placed_steady (A : List ℕ) :
    Steady build (blocksOutside build s A) s.dev (placed build s n k p).dev :=
  storeBlock_steady h.device (validBlock_ofNat hb.1) (clear_outside h hb.clear A) p

lemma hungTable_steady (A : List ℕ) {l : ℕ} (ht : FirstFree (setBit s.bitMapData k) dataBits t) :
    Steady build (blocksOutside build s A) s.dev (hungTable build s n l e z k t p).dev := by
  have hclear : bit s.bitMapData t = false := by
    have hset := ht.clear
    rw [bit_setBit, Bool.or_eq_false_iff] at hset
    exact hset.1
  exact (placed_steady h hb A).trans (storeBlock_steady (placed_ok h.device hb.1)
    (validBlock_ofNat ht.1) (clear_outside h hclear A) _)

/-- The table that gets an entry belongs to the object that is written. -/
lemma hungEntry_steady {l : ℕ} (hl : l < 4) (hne : indirect s.objs n l ≠ 0) :
    Steady build (blocksOutside build s [n]) s.dev (hungEntry build s n l e z k p).dev := by
  have hind := h.indirect_valid hl hne
  have hout : indirect s.objs n l - writeOffset ∉ blocksOutside build s [n] := by
    rintro ⟨r, hr, hval⟩
    have hown : value build s (.pointer n ⟨4 + l, by omega⟩) ≠ 0 := hne
    have hsame : .pointer n ⟨4 + l, by omega⟩ = r := h.accounts.inj hown <| by
      show indirect s.objs n l = _
      omega
    rw [← hsame] at hr
    simp [Ref.slot] at hr
  have hplaced := placed_ok (n := n) (p := p) h.device hb.1
  have hload := loadBlock_steady (K := blocksOutside build s [n]) hplaced (Or.inl hind)
  exact ((placed_steady h hb [n]).trans hload).trans
    (storeBlock_steady (loadBlock_ok hplaced (Or.inl hind)) hind hout _)

end Free

/-- A block is hung on one object, and the others are spared. -/
lemma hung_spares {b : ℕ} (h : StoreOk build True s) (hlive : s.live n = true) (hk : k < 4100)
    (hv : value build s (.ofBlock n k) = 0) (hp : Picks s n k b t) :
    Spares build s (hung build s n k z b t p) [n] := by
  obtain ⟨hok, hfill⟩ := hung_spec (z := z) (p := p) h hlive hk hv hp
  refine ⟨hok, (hung_touches h hk hp).low, fun r hr => ?_, ?_⟩
  · have hne : r.slot ≠ n := by simpa using hr
    have hother : ∀ q : Ref, q.slot = n → r ≠ q := fun q hq he => hne (he ▸ hq)
    unfold hung
    split_ifs with hd hz
    · rw [hungDirect_value h hp.data.1 hp.data.clear hd, Function.update_of_ne (hother _ rfl)]
    · have ht := hp.table ⟨hd, hz⟩
      rw [hungTable_value h hp.data.1 hp.data.clear (by omega) (by omega) hz ht.1 ht.clear,
        Function.update_of_ne (hother _ rfl), Function.update_of_ne (hother _ rfl)]
    · rw [hungEntry_value h hp.data.1 hp.data.clear (by omega) (by omega) hz,
        Function.update_of_ne (hother _ rfl)]
  · unfold hung
    split_ifs with hd hz
    · exact placed_steady (n := n) h hp.data [n]
    · exact hungTable_steady h hp.data [n] (hp.table ⟨hd, hz⟩)
    · exact hungEntry_steady h hp.data (by omega) hz

lemma write_spares {objid : ℤ} {buf : Memory} {offset : ℕ} {r : ℤ} (h : StoreOk build True s)
    (hcall : Remount.Sound build s (.write objid buf z offset))
    (hw : objstoreWrite build s objid buf z offset = some (s', r)) :
    Spares build s s' (altered s (.write objid buf z offset)) := by
  obtain ⟨⟨n, rfl, hlive, hk, hv⟩, hspare⟩ := hcall
  have hn : ((n : ℤ) + 2 - 2).toNat = n := by omega
  have hid : ¬((n : ℤ) + 2 < 2) := by omega
  have haltered : altered s (.write (n + 2) buf z offset) = [n] := by
    rw [altered, Remount.touched, if_neg hid, hn, Option.toList_some]
  rw [haltered]
  rw [Remount.Spare, hn] at hspare
  obtain ⟨hlow, -⟩ | ⟨m, hm, hin, hwrite⟩ := write_cases hw
  · exact absurd hlow hid
  obtain rfl : n = m := by omega
  obtain ⟨-, rfl, -⟩ | ⟨b, hb, -, -⟩ := hwrite
  · exact ⟨⟨h.device, h.accounts, h.clean, h.ids, h.slots⟩, fun _ _ => rfl,
      fun _ _ => rfl, Steady.refl _ _⟩
  have hcost : writeCost s n (offset / blockSize) ≤ (freeBits s.bitMapData dataBits).card := by
    have hpos : 0 < (freeBits s.bitMapData dataBits).card :=
      Finset.card_pos.mpr ⟨b, mem_freeBits.mpr ⟨hb.1, hb.clear⟩⟩
    unfold writeCost
    split_ifs with hneed
    · have := hspare hneed
      omega
    · exact hpos
  obtain ⟨b, t, hp⟩ := exists_picks hcost
  rw [objstoreWrite_hung h hin hv hp, Option.some.injEq, Prod.mk.injEq] at hw
  rw [← hw.1]
  exact hung_spares h hlive hk hv hp

end Write

section Read

variable {size offset : ℕ}

/-- Searches and reads move the device only, and no settled block. -/
lemma read_spares {reply : Reply} {objid : ℤ} (h : StoreOk build True s)
    (hcall : Call build s (.read objid size offset))
    (hexec : exec build s (.read objid size offset) = some (s', reply)) : Spares build s s' [] := by
  obtain hlow | ⟨n, rfl, hin, hmapped, htables⟩ := hcall
  · rw [exec, objstoreRead, if_pos hlow] at hexec
    cases hexec
    exact ⟨h, fun _ _ => rfl, fun _ _ => rfl, Steady.refl _ _⟩
  have hkeep : ∀ ptr, Readable build (ptr - writeOffset) → ∀ d,
      SameBlocks build s.dev d ∧ Steady build Set.univ s.dev d →
      SameBlocks build s.dev (fetch build d ptr).1 ∧
        Steady build Set.univ s.dev (fetch build d ptr).1 :=
    fun ptr hptr d hd => ⟨hd.1.trans (.load hd.1.ok hptr),
      hd.2.trans (loadBlock_steady hd.1.ok hptr)⟩
  obtain ⟨dev, hread, ⟨hdev, hsteady⟩, -⟩ := @objstoreRead_loop build
    (fun d => SameBlocks build s.dev d ∧ Steady build Set.univ s.dev d) s n size offset hin
    (fun j => view build s (indirect s.objs n j - writeOffset))
    (fun i => blockOf build s n (offset / blockSize + i))
    ⟨SameBlocks.refl h.device, Steady.refl _ _⟩ (fun i hi => (hmapped i hi).1)
    (fun j hj _ hlt => hkeep _ (htables j hj hlt))
    (fun i hi hge d hd => by
      obtain ⟨hlt, hne⟩ := hmapped i hi
      have ht := h.indirect_valid (by omega) (table_ne_zero hge hlt hne)
      exact (SameBlocks.fetches ht d hd.1).2)
    fun i hi d hd => by
      obtain ⟨hlt, hne⟩ := hmapped i hi
      rw [slotIn_eq hlt hne]
      exact ⟨hkeep _ (Or.inl (h.valid hne)) d hd, (SameBlocks.fetches (h.valid hne) d hd.1).2⟩
  rw [exec, hread] at hexec
  cases hexec
  exact ⟨hdev.storeOk h, hdev.low, fun r _ => by rw [hdev.value h],
    fun b _ hb hs => hsteady b (Set.mem_univ b) hb hs⟩

end Read

/-- Every call spares the objects it does not alter. -/
theorem exec_spares {op : Op} {reply : Reply} (h : StoreOk build True s) (hcall : Call build s op)
    (hexec : exec build s op = some (s', reply)) : Spares build s s' (altered s op) := by
  have hidle : ∀ t : Option ℕ, Spares build s { s with temp := t } [] := fun t =>
    ⟨h.recall t, fun _ _ => rfl, fun _ _ => rfl, Steady.refl _ _⟩
  cases op with
  | create key =>
    obtain ⟨r, hcreate, -⟩ := exec_create hexec
    obtain ⟨-, rfl, -⟩ | ⟨n, hn, -, rfl, -⟩ := create_cases hcreate
    · exact hidle s'.temp
    · exact ⟨created_ok h hn.1 hcall.1, fun _ _ => rfl,
        fun r _ => by rw [value_created hcall.1], Steady.refl _ _⟩
  | rename key newname =>
    obtain ⟨r, hrename, -⟩ := exec_rename hexec
    obtain ⟨-, rfl, -⟩ | ⟨n, hn, -, rfl, -⟩ := rename_cases hrename
    · exact hidle s'.temp
    · exact ⟨renamed_ok h hcall.1, fun _ _ => rfl,
        fun r _ => by rw [value_renamed hcall.1], Steady.refl _ _⟩
  | destroy key =>
    obtain ⟨r, hdestroy, -⟩ := exec_destroy hexec
    obtain ⟨hnone, rfl, -⟩ | ⟨n, hn, -, hs', -⟩ := destroy_cases hdestroy
    · rw [altered, Remount.touched, searchKey_none hnone]
      exact hidle s'.temp
    · rw [altered, Remount.touched, Remount.searchKey_touched hn, Option.toList_some, hs']
      have he := destroyed_emptied h hn.live
      refine ⟨destroyed_ok h hn.live, he.low, fun r hr => ?_, destroyed_steady h n⟩
      rw [he.values, if_neg (by simpa using hr)]
  | write objid buf size offset =>
    obtain ⟨r, hwrite, -⟩ := exec_write hexec
    exact write_spares h hcall hwrite
  | read objid size offset => exact read_spares h hcall hexec
  | find key =>
    rw [exec] at hexec
    cases hexec
    obtain ⟨n, hn⟩ | hnone := s.keyAt_or_noKey key
    · rw [findObjectId_some hn]
      exact hidle (some n)
    · rw [findObjectId_none hnone]
      exact hidle s.temp
  | stat ino =>
    rw [exec] at hexec
    split at hexec <;> cases hexec <;> exact hidle s.temp

end Calls

section Runs

variable {s₀ : Store} {A : List ℕ}

/-- Since the mount the objects outside `A` kept their blocks, and the disk holds them. -/
structure Survives (build : Build) (s₀ s : Store) (A : List ℕ) : Prop where
  ok : StoreOk build True s
  low : ∀ p, p < writeOffset → s.dev.disk.image p = s₀.dev.disk.image p
  values : ∀ r : Ref, r.slot ∉ A → value build s r = value build s₀ r
  blocks : ∀ r : Ref, r.slot ∉ A → value build s₀ r ≠ 0 →
    Settled build s.dev (value build s₀ r - writeOffset) ∧
      s.dev.disk.image (value build s₀ r) = view build s₀ (value build s₀ r - writeOffset)

lemma mounted_survives (h : StoreOk build True s₀) (hm : Mounted d s₀) :
    Survives build s₀ s₀ [] := by
  obtain ⟨disk, hdev, -, -⟩ := hm.dev
  refine ⟨h, fun _ _ => rfl, fun _ _ => rfl, fun r _ hne => ?_⟩
  have hsettled : Settled build s₀.dev (value build s₀ r - writeOffset) := by
    rw [Settled, hdev, init_view (h.valid hne)]
    rfl
  refine ⟨hsettled, ?_⟩
  rw [Settled, add_sub_cancel] at hsettled
  exact hsettled

lemma Survives.step {op : Op} {reply : Reply} (h : Survives build s₀ s A)
    (hcall : Call build s op) (hexec : exec build s op = some (s', reply)) :
    Survives build s₀ s' (A ++ altered s op) := by
  have hs := exec_spares h.ok hcall hexec
  refine ⟨hs.ok, fun p hp => (hs.low p hp).trans (h.low p hp), fun r hr => ?_,
      fun r hr hne => ?_⟩ <;>
    obtain ⟨hA, hop⟩ := not_or.mp (List.mem_append.not.mp hr)
  · exact (hs.values r hop).trans (h.values r hA)
  · obtain ⟨hsettled, himage⟩ := h.blocks r hA hne
    have hval := h.values r hA
    have hvalid := h.ok.valid (r := r) (by rwa [hval])
    rw [hval] at hvalid
    have hmem : value build s₀ r - writeOffset ∈ blocksOutside build s (altered s op) :=
      ⟨r, hop, by rw [hval, add_sub_cancel]⟩
    obtain ⟨himage', hsettled'⟩ := hs.steady _ hmem hvalid hsettled
    rw [add_sub_cancel] at himage'
    exact ⟨hsettled', himage'.trans himage⟩

lemma Survives.run {ops : List Op} {rs : List Reply} (h : Survives build s₀ s A)
    (hops : Along (exec build) (Call build) s ops) (hrun : execAll build s ops = some (s', rs)) :
    Survives build s₀ s' (A ++ alteredAll build s ops) := by
  induction ops generalizing s rs A with
  | nil =>
    cases hrun
    rw [alteredAll, List.append_nil]
    exact h
  | cons op ops ih =>
    obtain ⟨s₁, r, rs', hstep, hrun', rfl⟩ := Machine.run_cons.mp hrun
    have hrest := ih (h.step hops.1 hstep) (hops.2 s₁ r hstep) hrun'
    rw [alteredAll, hstep, ← List.append_assoc]
    exact hrest

end Runs

section Recovery

variable {s₀ t : Store} {A : List ℕ} {ns : List ℕ}

/-- The store `t` is the store `s` again, but for the blocks of the slots of `A`. -/
structure Recovered (build : Build) (s t : Store) (A : List ℕ) : Prop where
  objs : t.objs = s.objs
  inodes : ∀ i : ℕ, i < maxInodes → t.bitMapInode i = s.bitMapInode i
  data : ∀ i : ℕ, i < dataWords → t.bitMapData i = s.bitMapData i
  finds : ∀ key, (findObjectId t key).2 = (findObjectId s key).2
  lookups : ∀ r : Ref, r.slot ∉ A → value build t r = value build s r ∧
    (value build s r ≠ 0 →
      view build t (value build s r - writeOffset) = view build s (value build s r - writeOffset))

lemma Recovered.trans {A' : List ℕ} (h : Recovered build s s₀ A) (h' : Recovered build s₀ t A')
    (hA : A ⊆ A') : Recovered build s t A' := by
  refine ⟨h'.objs.trans h.objs, fun i hi => (h'.inodes i hi).trans (h.inodes i hi),
    fun i hi => (h'.data i hi).trans (h.data i hi),
    fun key => (h'.finds key).trans (h.finds key), fun r hr => ?_⟩
  obtain ⟨hval, hview⟩ := h.lookups r fun hrA => hr (hA hrA)
  obtain ⟨hval', hview'⟩ := h'.lookups r hr
  rw [hval] at hval' hview'
  exact ⟨hval', fun hne => (hview' hne).trans (hview hne)⟩

lemma tableByte_congr {image image' : ℤ → Block} {k : ℕ}
    (h : ∀ i : ℕ, i < k → image' i = image i) : tableByte image' k = tableByte image k := by
  funext a
  unfold tableByte
  split_ifs with ha
  · rw [h (a / 4048) (by omega)]
  · rfl

lemma bitmapWord_congr {image image' : ℤ → Block} {start k : ℕ}
    (h : ∀ i : ℕ, i < k → image' (start + i : ℕ) = image (start + i : ℕ)) :
    bitmapWord image' start k = bitmapWord image start k := by
  funext w
  unfold bitmapWord
  split_ifs with hw
  · have hplace : w / 1024 + start = ((start + (w / 1024).toNat : ℕ) : ℤ) := by omega
    rw [hplace, h _ (by omega)]
  · rfl

/-- A mount after a crash finds what the mount before it found. -/
theorem Survives.recovered (h : Survives build s₀ s A) (hm₀ : Mounted d s₀) (hm : Mounted d' t)
    (hcrash : d'.disk = s.dev.disk) : Recovered build s₀ t A := by
  obtain ⟨hob, hib, hdb, hw⟩ := layout
  obtain ⟨disk₀, hdev₀, -, himage₀⟩ := hm₀.dev
  obtain ⟨disk, hdev, -, himage⟩ := hm.dev
  have hlow : ∀ p, p < writeOffset → d'.disk.image p = d.disk.image p := fun p hp => by
    rw [hcrash, h.low p hp, hdev₀]
    exact congrFun himage₀ p
  have hobjs : t.objs = s₀.objs := by
    rw [hm.objs, hm₀.objs]
    exact tableByte_congr fun i hi => hlow _ (by omega)
  have hinodes : t.bitMapInode = s₀.bitMapInode := by
    rw [hm.inodes, hm₀.inodes]
    exact bitmapWord_congr fun i hi => hlow _ (by push_cast; omega)
  have hdata : t.bitMapData = s₀.bitMapData := by
    rw [hm.data, hm₀.data]
    exact bitmapWord_congr fun i hi => hlow _ (by push_cast; omega)
  -- the mount reads each block of a spared object where the crash left it
  have hview : ∀ r : Ref, r.slot ∉ A → value build s₀ r ≠ 0 →
      view build t (value build s₀ r - writeOffset) =
        view build s₀ (value build s₀ r - writeOffset) := by
    intro r hr hne
    have hvalid := h.ok.valid (r := r) (by rwa [h.values r hr])
    rw [h.values r hr] at hvalid
    rw [← (h.blocks r hr hne).2, view, hdev, init_view hvalid, add_sub_cancel, ← hcrash]
    exact congrFun himage _
  refine ⟨hobjs, fun i _ => by rw [hinodes], fun i _ => by rw [hdata],
    Remount.findObjectId_congr hobjs fun i _ => by rw [hinodes], fun r hr => ⟨?_, hview r hr⟩⟩
  cases r with
  | pointer n j => rw [value, value, hobjs]
  | entry n l e =>
    refine value_entry_congr (by rw [hobjs]) fun hne => ?_
    exact hview (.pointer n ⟨4 + l, by omega⟩) hr hne

/-- A mount after an unmount finds the whole store, in order. -/
lemma remounted (h : Remount.Kept build s ns) (hcov : Remount.Covered ns) {dev : Device}
    (hu : Unmounted build s dev) (hm : Mounted dev t) :
    StoreOk build True t ∧ Recovered build s t [] := by
  have hsame := Remount.sameStore_of_unmounted h hcov hu hm
  have hobjs : t.objs = s.objs := hm.objs.trans (Remount.remount_objs h hcov hu)
  obtain ⟨disk, hdev, hhealthy, himage⟩ := hm.dev
  have hview : ∀ b, ValidBlock b → view build t b = view build s b := by
    intro b hb
    rw [view, hdev, init_view hb]
    exact (congrFun himage _).trans (hu.blocks b hb)
  have hval : value build t = value build s :=
    value_congr (fun _ _ _ => by rw [hobjs]) fun n l hl hz => hview _ (h.ok.indirect_valid hl hz)
  have hlive : ∀ n, t.live n = s.live n := by
    intro n
    by_cases hn : n / 32 < maxInodes
    · rw [Store.live, Store.live, bit, bit, hsame.inodes _ hn]
    · have hdead : s.live n = false := by
        by_contra hlive
        have := h.ok.slots n (by simpa using hlive)
        rw [slotCount_eq] at this
        rw [maxInodes_eq] at hn
        omega
      rw [hdead, Store.live, bit, hm.inodes, bitmapWord, if_neg]
      · exact BitVec.getLsbD_zero
      · rw [maxInodes_eq] at hn
        rw [inodeBitBlocks_eq]
        omega
  have hbits : ∀ b, bit t.bitMapData b = true ↔ bit s.bitMapData b = true := by
    intro b
    by_cases hb : b / 32 < dataWords
    · rw [bit, bit, hsame.data _ hb]
    · have hclear : ¬bit s.bitMapData b = true := by
        intro hused
        obtain ⟨r, hr⟩ := h.ok.accounts.ledger.owned trivial b hused
        have := h.ok.accounts.lt (h.ok.accounts.owner_iff.mp hr)
        rw [dataBits_eq] at this
        rw [dataWords_eq] at hb
        omega
      rw [bit, hm.data, bitmapWord, if_neg]
      · simp [hclear]
      · rw [dataWords_eq] at hb
        rw [dataBlocks_eq]
        omega
  have haccounts : Accounts True (value build t) t.bitMapData := by
    rw [hval]
    exact ⟨h.ok.accounts.range, h.ok.accounts.ledger.congr_used hbits⟩
  refine ⟨⟨hdev ▸ init_ok hhealthy, haccounts, fun n hn => ?_, fun n hn => ?_, fun n hn => ?_⟩,
    hobjs, hsame.inodes, hsame.data, hsame.finds, fun r _ => ⟨by rw [hval], fun hne => ?_⟩⟩
  · rw [hobjs]
    exact h.ok.clean n ((hlive n).symm.trans hn)
  · rw [hobjs]
    exact h.ok.ids n ((hlive n).symm.trans hn)
  · exact h.ok.slots n ((hlive n).symm.trans hn)
  · exact hview _ (h.ok.valid hne)

/-- After a crash the store is as the last unmount left it, but for the blocks of the objects
that were written or destroyed since. -/
theorem crash_returns_unmounted (build : Build) (d : Device) (hd : Blank d) (ops ops' : List Op)
    (hops : Along (exec build) (Remount.Sound build) (objstoreInit d) ops)
    (hcov : Remount.Covered (Remount.touchedAll build (objstoreInit d) ops)) (s s' : Store)
    (rs rs' : List Reply) (hrun : execAll build (objstoreInit d) ops = some (s, rs))
    (hops' : Along (exec build) (Call build) (objstoreInit (objstoreDestroy s)) ops')
    (hrun' : execAll build (objstoreInit (objstoreDestroy s)) ops' = some (s', rs'))
    (d' : Device) (hcrash : d'.disk = s'.dev.disk) :
    Recovered build s (objstoreInit d')
      (alteredAll build (objstoreInit (objstoreDestroy s)) ops') := by
  have hkept := (Remount.empty_kept build (objstoreInit_empty hd)).run hops hrun
  rw [List.nil_append] at hkept
  have hu := objstoreDestroy_unmounted hkept.ok.device
  have hm₀ := objstoreInit_mounted hu.healthy
  obtain ⟨hok, hback⟩ := remounted hkept hcov hu hm₀
  have hsurvives := (mounted_survives hok hm₀).run hops' hrun'
  rw [List.nil_append] at hsurvives
  have hhealthy : d'.disk.Healthy := by
    rw [hcrash]
    exact device_healthy hsurvives.ok.device
  exact hback.trans (hsurvives.recovered hm₀ (objstoreInit_mounted hhealthy) hcrash)
    (List.nil_subset _)

section Renamed

/-- A store with one object, unmounted and mounted again. -/
lemma created_kept {s : Store} (hs : s = created (objstoreInit blankDevice) 0 keyA) :
    execAll .objfs (objstoreInit blankDevice) [.create keyA] = some (s, [{ ret := 2 }]) ∧
      Along (exec .objfs) (Remount.Sound .objfs) (objstoreInit blankDevice) [.create keyA] ∧
      Remount.touchedAll .objfs (objstoreInit blankDevice) [.create keyA] = [0] := by
  have hempty := objstoreInit_empty blankDevice_blank
  have hfits : Fits keyA := by decide
  have hcreate : exec .objfs (objstoreInit blankDevice) (.create keyA) = _ :=
    hempty.create (by decide)
  have htrace : Machine.Trace (exec .objfs) (Remount.Sound .objfs) (objstoreInit blankDevice)
      [.create keyA] (created (objstoreInit blankDevice) 0 keyA) [{ ret := 2 }] :=
    .cons ⟨hfits, trivial⟩ hcreate (.nil _)
  have hslot : Remount.touched (objstoreInit blankDevice) (.create keyA) = some 0 := by
    rw [Remount.touched, scan_free maxInodes hempty.firstSlot]
    rfl
  refine ⟨hs ▸ htrace.run, htrace.along, ?_⟩
  rw [Remount.touchedAll, hcreate, hslot, Option.toList_some]
  simp only [Remount.touchedAll, List.append_nil]

/-- The object has its name when it is mounted again. -/
lemma rename_again {s t : Store} (hs : s = created (objstoreInit blankDevice) 0 keyA)
    (hok : StoreOk .objfs True t) (h : Recovered .objfs s t []) :
    execAll .objfs t [.rename keyA keyB] = some (renamed t 0 keyB, [{ ret := 2 }]) := by
  have hassigned : Assigned (objstoreInit blankDevice) (created (objstoreInit blankDevice) 0 keyA)
      0 keyA := created_assigned (by decide)
  have hnamed : s.named keyA 0 = true := by
    rw [hs]
    exact (hassigned.self keyA).mpr rfl
  have hword : 0 / 32 < maxInodes := by norm_num [maxInodes_eq]
  have hnamed' : t.named keyA 0 = true := by
    rw [← hnamed, Store.named, Store.named, Store.live, Store.live, bit, bit, h.inodes _ hword,
      h.objs]
  have hlive := (named_iff.mp hnamed').1
  have hat : t.KeyAt keyA 0 := ⟨hok.slots 0 hlive, hnamed', fun k hk => by omega⟩
  have hrename : exec .objfs t (.rename keyA keyB) = some (renamed t 0 keyB, { ret := 2 }) := by
    rw [exec, renameObject_eq hat, if_pos (keyInObjs (n := 0) (by decide) (by decide)),
      hok.ids 0 hlive]
    rfl
  exact Machine.run_cons.mpr ⟨_, _, [], hrename, rfl, rfl⟩

end Renamed

/-- A name that was given after the unmount is gone. -/
theorem crash_returns_renamed : ∃ s s',
    execAll .objfs (objstoreInit blankDevice) [.create keyA] = some (s, [{ ret := 2 }]) ∧
      execAll .objfs (objstoreInit (objstoreDestroy s)) [.rename keyA keyB] =
        some (s', [{ ret := 2 }]) ∧ Recovered .objfs s (objstoreInit s'.dev) [] := by
  obtain ⟨s, hs⟩ : ∃ s, s = created (objstoreInit blankDevice) 0 keyA := ⟨_, rfl⟩
  obtain ⟨hrun, halong, htouched⟩ := created_kept hs
  have hcov : Remount.Covered
      (Remount.touchedAll .objfs (objstoreInit blankDevice) [.create keyA]) := by
    rw [htouched]
    decide
  have hkept := (Remount.empty_kept .objfs (objstoreInit_empty blankDevice_blank)).run halong hrun
  rw [List.nil_append] at hkept
  have hu := objstoreDestroy_unmounted hkept.ok.device
  obtain ⟨hok, hback⟩ := remounted hkept hcov hu (objstoreInit_mounted hu.healthy)
  have hrename := rename_again hs hok hback
  have hfits : Fits keyB := by decide
  have hcall : Along (exec .objfs) (Call .objfs) (objstoreInit (objstoreDestroy s))
      [.rename keyA keyB] := ⟨⟨hfits, trivial⟩, fun _ _ _ => trivial⟩
  have hcrash := crash_returns_unmounted .objfs blankDevice blankDevice_blank _ _ halong hcov s _ _
    _ hrun hcall hrename _ rfl
  obtain ⟨t, r, rs, hstep, -, -⟩ := Machine.run_cons.mp hrename
  rw [alteredAll, hstep] at hcrash
  exact ⟨s, _, hrun, hrename, hcrash⟩

end Recovery

end OsAssignments.Crashes
