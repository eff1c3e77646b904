import OsAssignments.Reading
import OsAssignments.Touching

/-!
# The two builds agree

The cached build throws dirty blocks away when an object is destroyed. That is
seen by nobody as long as the blocks in use are the blocks referenced: a block
given back is written whole before it is referenced again. The two builds are run
side by side; they agree on the globals, on the value of every reference, and on
the contents of the blocks in use.
-/
namespace OsAssignments.BuildAgreement

open ByteMemory Bitmap ObjectTable Builds
open BlockCache (ValidBlock)
open Machine (Along Alike)

variable {s t s' t' : Store} {n k z b c : ℕ} {p : Block} {key key' : CString}

/-- The uncached store `s` and the cached store `t` are the same to every caller. -/
structure Agree (s t : Store) : Prop where
  plain : StoreOk .objfs True s
  cached : StoreOk .objfsCached True t
  objs : t.objs = s.objs
  inodes : t.bitMapInode = s.bitMapInode
  dirty : t.dBitMap = s.dBitMap
  temp : t.temp = s.temp
  lock : t.lockData = s.lockData
  values : value .objfsCached t = value .objfs s
  views : ∀ r, value .objfs s r ≠ 0 →
    view .objfsCached t (value .objfs s r - writeOffset) =
      view .objfs s (value .objfs s r - writeOffset)
  low : ∀ q, q < writeOffset → t.dev.disk.image q = s.dev.disk.image q

lemma empty_agree {d d' : Device} (hs : Empty d s) (ht : Empty d' t) : Agree s t := by
  obtain ⟨disk, hdev, hblank⟩ := hs.dev
  obtain ⟨disk', hdev', hblank'⟩ := ht.dev
  refine ⟨hs.ok, ht.ok, by rw [hs.objs, ht.objs], by rw [hs.inodes, ht.inodes],
    by rw [hs.dirty, ht.dirty], by rw [hs.temp, ht.temp], by rw [hs.lock, ht.lock],
      funext fun r => ?_,
    fun r hr => absurd (hs.value _ r) hr, fun q _ => ?_⟩
  · rw [hs.value, ht.value]
  · rw [hdev, hdev']
    exact (hblank'.zero q).trans (hblank.zero q).symm

lemma loaded {build : Build} {strict : Prop} {x : ℤ} (h : StoreOk build strict s)
    (hx : ValidBlock x) : (loadBlock build s.dev x).2 = view build s x :=
  loadBlock_val h.device hx

namespace Agree

lemma bits (h : Agree s t) (b : ℕ) : bit t.bitMapData b = bit s.bitMapData b := by
  rw [Bool.eq_iff_iff]
  refine (h.cached.accounts.ledger.used_iff b).trans
    (Iff.trans ?_ (h.plain.accounts.ledger.used_iff b).symm)
  rw [h.values]

lemma live (h : Agree s t) (n : ℕ) : t.live n = s.live n := by rw [Store.live, Store.live, h.inodes]

lemma named (h : Agree s t) (key : CString) : t.named key = s.named key := by
  funext n
  rw [Store.named, Store.named, h.live, h.objs]

lemma keyAt (h : Agree s t) (hn : s.KeyAt key n) : t.KeyAt key n := by
  rw [Store.KeyAt, h.named]
  exact hn

lemma noKey (h : Agree s t) (hn : s.NoKey key) : t.NoKey key := fun n hlt => by
  rw [h.named]
  exact hn n hlt

/-- The block of a set bit reads the same. -/
lemma used (h : Agree s t) (hb : bit s.bitMapData b = true) :
    view .objfsCached t b = view .objfs s b := by
  obtain ⟨r, hr, -⟩ := (h.plain.accounts.ledger.used_iff b).mp hb
  have hv := h.plain.accounts.owner_iff.mp hr
  have hview := h.views r (hv ▸ position_ne_zero b)
  rwa [hv, position_sub] at hview

lemma picks (h : Agree s t) (hp : Picks s n k b c) : Picks t n k b c := by
  refine ⟨FirstFree.congr h.bits hp.data, fun hneed => ?_⟩
  rw [NeedsTable, h.objs] at hneed
  exact FirstFree.congr (fun m => by rw [bit_setBit, bit_setBit, h.bits]) (hp.table hneed)

end Agree

section Names

variable (h : Agree s t)
include h

lemma create_agree (hk : Fits key) : Option.Rel (Alike Agree) (exec .objfs s (.create key))
    (exec .objfsCached t (.create key)) := by
  rcases (freeBits s.bitMapInode slotCount).eq_empty_or_nonempty with hfull | hfree
  · rw [exec, exec, createObject_full hfull, createObject_full (by rwa [h.inodes])]
    exact .some ⟨h, rfl⟩
  · obtain ⟨n, hn⟩ := exists_firstFree hfree
    have hn' : FirstFree t.bitMapInode slotCount n := by rwa [h.inodes]
    rw [exec, exec, createObject_eq hn, createObject_eq hn']
    split_ifs
    · refine .some ⟨⟨created_ok h.plain hn.1 hk, created_ok h.cached hn.1 hk, ?_, ?_, ?_, h.temp,
        h.lock, ?_, fun r hr => ?_, h.low⟩, rfl⟩
      · rw [created, created, h.objs]
      · rw [created, created, h.inodes]
      · rw [created, created, Store.markDirty, Store.markDirty, h.dirty]
      · rw [value_created hk, value_created hk, h.values]
      · rw [value_created hk] at hr ⊢
        exact h.views r hr
    · exact .none

lemma rename_agree (hk : Fits key') : Option.Rel (Alike Agree) (exec .objfs s (.rename key key'))
    (exec .objfsCached t (.rename key key')) := by
  rcases s.keyAt_or_noKey key with ⟨n, hn⟩ | hnone
  · rw [exec, exec, renameObject_eq hn, renameObject_eq (h.keyAt hn), h.objs]
    split_ifs
    · refine .some ⟨⟨renamed_ok h.plain hk, renamed_ok h.cached hk, ?_, h.inodes, ?_, h.temp,
        h.lock, ?_, fun r hr => ?_, h.low⟩, rfl⟩
      · rw [renamed, renamed, h.objs]
      · rw [renamed, renamed, Store.markDirty, Store.markDirty, h.dirty]
      · rw [value_renamed hk, value_renamed hk, h.values]
      · rw [value_renamed hk] at hr ⊢
        exact h.views r hr
    · exact .none
  · rw [exec, exec, renameObject_none hnone, renameObject_none (h.noKey hnone)]
    exact .some ⟨h, rfl⟩

/-- Destroying an object drops blocks that no other object reads. -/
lemma destroyed_agree (hlive : s.live n = true) :
    Agree (destroyed .objfs s n) (destroyed .objfsCached t n) := by
  have hlive' : t.live n = true := (h.live n).trans hlive
  have hs := destroyed_emptied h.plain hlive
  have ht := destroyed_emptied h.cached hlive'
  have htable := destroyed_table .objfs s n
  have htable' := destroyed_table .objfsCached t n
  refine ⟨destroyed_ok h.plain hlive, destroyed_ok h.cached hlive', ?_, ?_, ?_, ?_, ?_,
    funext fun r => ?_, fun r hr => ?_, fun q hq => ?_⟩
  · rw [htable.objs, htable'.objs, h.objs]
  · rw [htable.inodes, htable'.inodes, unlinked, unlinked, h.inodes]
  · rw [htable.dirty, htable'.dirty, unlinked, unlinked, Store.markDirty, Store.markDirty, h.dirty]
  · rw [htable.temp, htable'.temp]
    exact h.temp
  · rw [hs.lock, ht.lock, h.lock]
  · rw [hs.values, ht.values, h.values]
  · rw [hs.values] at hr ⊢
    split_ifs at hr ⊢ with hslot
    · exact absurd rfl hr
    · rw [hs.views r hslot hr, ← h.views r hr]
      have hview := ht.views r hslot (by rwa [h.values])
      rwa [h.values] at hview
  · rw [hs.low q hq, ht.low q hq, h.low q hq]

lemma destroy_agree : Option.Rel (Alike Agree) (exec .objfs s (.destroy key))
    (exec .objfsCached t (.destroy key)) := by
  rcases s.keyAt_or_noKey key with ⟨n, hn⟩ | hnone
  · have hagree := destroyed_agree h hn.live
    rw [exec, exec, destroyObject_eq hn, destroyObject_eq (h.keyAt hn)]
    generalize destroyed .objfs s n = u at hagree ⊢
    generalize destroyed .objfsCached t n = u' at hagree ⊢
    split_ifs
    · exact .some ⟨hagree, rfl⟩
    · exact .none
  · rw [exec, exec, destroyObject_none hnone, destroyObject_none (h.noKey hnone)]
    exact .some ⟨h, rfl⟩

end Names

section Writes

variable (h : Agree s t)
include h

/-- The globals after a write, which both builds compute from the same globals. -/
structure SameGlobals (s t : Store) : Prop where
  objs : t.objs = s.objs
  inodes : t.bitMapInode = s.bitMapInode
  dirty : t.dBitMap = s.dBitMap
  temp : t.temp = s.temp
  lock : t.lockData = s.lockData

lemma hung_globals : SameGlobals (hung .objfs s n k z b c p) (hung .objfsCached t n k z b c p) := by
  rw [hung, hung, h.objs]
  split_ifs
  · refine ⟨?_, h.inodes, ?_, h.temp, h.lock⟩ <;>
      simp only [hungDirect, placed, Store.markDirty, h.objs, h.dirty]
  · refine ⟨?_, h.inodes, ?_, h.temp, h.lock⟩ <;>
      simp only [hungTable, placed, Store.markDirty, h.objs, h.dirty]
  · refine ⟨?_, h.inodes, ?_, h.temp, h.lock⟩ <;>
      simp only [hungEntry, placed, Store.markDirty, h.objs, h.dirty]

/-- The values of both builds, and the views of the blocks they name. -/
def SameBlocksUsed (s t : Store) : Prop :=
  value .objfsCached t = value .objfs s ∧ ∀ r, value .objfs s r ≠ 0 →
    view .objfsCached t (value .objfs s r - writeOffset) =
      view .objfs s (value .objfs s r - writeOffset)

lemma hungDirect_used (hb : b < dataBits) (hclear : bit s.bitMapData b = false) (hk : k < 4) :
    SameBlocksUsed (hungDirect .objfs s n k z b p) (hungDirect .objfsCached t n k z b p) := by
  have hclear' : bit t.bitMapData b = false := (h.bits b).trans hclear
  have hval := hungDirect_value (n := n) (z := z) (p := p) h.plain hb hclear hk
  have hval' := hungDirect_value (n := n) (z := z) (p := p) h.cached hb hclear' hk
  have hview := fun {x : ℤ} => hungDirect_view (n := n) (k := k) (z := z) (p := p) (x := x)
    h.plain.device hb
  have hview' := fun {x : ℤ} => hungDirect_view (n := n) (k := k) (z := z) (p := p) (x := x)
    h.cached.device hb
  refine ⟨by rw [hval, hval', h.values], fun r hr => ?_⟩
  rw [hval] at hr ⊢
  by_cases href : r = .pointer n ⟨k, by omega⟩
  · subst href
    rw [Function.update_self, position_sub, hview (validBlock_ofNat hb),
      hview' (validBlock_ofNat hb), if_pos rfl, if_pos rfl]
  · rw [Function.update_of_ne href] at hr ⊢
    rw [hview (h.plain.valid hr), hview' (h.plain.valid hr), h.views r hr]

lemma hungEntry_used {l e : ℕ} (hb : b < dataBits) (hclear : bit s.bitMapData b = false)
    (hl : l < 4) (he : e < 1024) (hne : indirect s.objs n l ≠ 0) :
    SameBlocksUsed (hungEntry .objfs s n l e z b p) (hungEntry .objfsCached t n l e z b p) := by
  have hclear' : bit t.bitMapData b = false := (h.bits b).trans hclear
  have hne' : indirect t.objs n l ≠ 0 := by rwa [h.objs]
  have hind := h.plain.indirect_valid hl hne
  have hval := hungEntry_value (z := z) (p := p) h.plain hb hclear hl he hne
  have hval' := hungEntry_value (z := z) (p := p) h.cached hb hclear' hl he hne'
  have hview := fun {x : ℤ} => hungEntry_view (n := n) (l := l) (e := e) (z := z) (p := p) (x := x)
    h.plain.device hb hind
  have hview' := fun {x : ℤ} => hungEntry_view (n := n) (l := l) (e := e) (z := z) (p := p) (x := x)
    h.cached.device hb (h.cached.indirect_valid hl hne')
  have htable : view .objfsCached t (indirect s.objs n l - writeOffset) =
      view .objfs s (indirect s.objs n l - writeOffset) :=
    h.views (.pointer n ⟨4 + l, by omega⟩) hne
  simp only [h.objs, htable] at hview'
  refine ⟨by rw [hval, hval', h.values], fun r hr => ?_⟩
  rw [hval] at hr ⊢
  by_cases href : r = .entry n ⟨l, hl⟩ ⟨e, he⟩
  · subst href
    rw [Function.update_self, position_sub, hview (validBlock_ofNat hb),
      hview' (validBlock_ofNat hb), if_pos rfl, if_pos rfl]
  · rw [Function.update_of_ne href] at hr ⊢
    rw [hview (h.plain.valid hr), hview' (h.plain.valid hr), h.views r hr]

lemma hungTable_used {l e : ℕ} (hb : b < dataBits) (hclear : bit s.bitMapData b = false)
    (hl : l < 4) (he : e < 1024) (hz : indirect s.objs n l = 0) (hc : c < dataBits)
    (hclear₂ : bit (setBit s.bitMapData b) c = false) :
    SameBlocksUsed (hungTable .objfs s n l e z b c p) (hungTable .objfsCached t n l e z b c p) := by
  have hclear' : bit t.bitMapData b = false := (h.bits b).trans hclear
  have hclear₂' : bit (setBit t.bitMapData b) c = false := by
    rwa [bit_setBit, h.bits, ← bit_setBit]
  have hz' : indirect t.objs n l = 0 := by rwa [h.objs]
  have hval := hungTable_value (z := z) (p := p) h.plain hb hclear hl he hz hc hclear₂
  have hval' := hungTable_value (z := z) (p := p) h.cached hb hclear' hl he hz' hc hclear₂'
  have hview := fun {x : ℤ} => hungTable_view (n := n) (l := l) (e := e) (z := z) (p := p) (x := x)
    h.plain.device hb hc
  have hview' := fun {x : ℤ} => hungTable_view (n := n) (l := l) (e := e) (z := z) (p := p) (x := x)
    h.cached.device hb hc
  refine ⟨by rw [hval, hval', h.values], fun r hr => ?_⟩
  rw [hval] at hr ⊢
  by_cases href : r = .entry n ⟨l, hl⟩ ⟨e, he⟩
  · subst href
    rw [Function.update_self, position_sub, hview (validBlock_ofNat hb),
      hview' (validBlock_ofNat hb), if_pos rfl, if_pos rfl]
  · rw [Function.update_of_ne href] at hr ⊢
    by_cases hptr : r = .pointer n ⟨4 + l, by omega⟩
    · subst hptr
      rw [Function.update_self, position_sub, hview (validBlock_ofNat hc),
        hview' (validBlock_ofNat hc), if_pos rfl, if_pos rfl]
    · rw [Function.update_of_ne hptr] at hr ⊢
      rw [hview (h.plain.valid hr), hview' (h.plain.valid hr), h.views r hr]

lemma hung_used (hk : k < 4100) (hp : Picks s n k b c) :
    SameBlocksUsed (hung .objfs s n k z b c p) (hung .objfsCached t n k z b c p) := by
  rw [hung, hung, h.objs]
  split_ifs with hk' hz
  · exact hungDirect_used h hp.data.1 hp.data.clear hk'
  · exact hungTable_used h hp.data.1 hp.data.clear (by omega) (by omega) hz (hp.table ⟨hk', hz⟩).1
      (hp.table ⟨hk', hz⟩).clear
  · exact hungEntry_used h hp.data.1 hp.data.clear (by omega) (by omega) hz

theorem hung_agree (hlive : s.live n = true) (hk : k < 4100)
    (hv : value .objfs s (.ofBlock n k) = 0) (hp : Picks s n k b c) :
    Agree (hung .objfs s n k z b c p) (hung .objfsCached t n k z b c p) := by
  have hp' := h.picks hp
  have hg := hung_globals (n := n) (k := k) (z := z) (b := b) (c := c) (p := p) h
  have hused := hung_used (z := z) (p := p) h hk hp
  have hs := hung_spec (z := z) (p := p) h.plain hlive hk hv hp
  have ht := hung_spec (z := z) (p := p) h.cached ((h.live n).trans hlive) hk
    (by rwa [h.values]) hp'
  have hlow := (hung_touches (z := z) (p := p) h.plain hk hp).low
  have hlow' := (hung_touches (z := z) (p := p) h.cached hk hp').low
  exact ⟨hs.1, ht.1, hg.objs, hg.inodes, hg.dirty, hg.temp, hg.lock, hused.1, hused.2,
    fun q hq => by rw [hlow q hq, hlow' q hq, h.low q hq]⟩

end Writes

section Runs

/-- The first `c` blocks of the object in slot `n` are written. -/
def Written (s : Store) (n c : ℕ) : Prop := ∀ k < c, value .objfs s (.ofBlock n k) ≠ 0

/-- The calls of the runs, with names restricted to `names`: a write goes to the next
unwritten block of a live object, with enough blocks free, and a read stays inside
the blocks written. -/
def Call (names : CString → Prop) (s : Store) : Op → Prop
  | .create key => names key
  | .rename _ newname => names newname
  | .write objid _ size offset => ∃ n : ℕ, objid = n + 2 ∧ s.live n = true ∧ size ≤ 4096 ∧
      offset / blockSize < 4100 ∧ Written s n (offset / blockSize) ∧
      value .objfs s (.ofBlock n (offset / blockSize)) = 0 ∧
      writeCost s n (offset / blockSize) ≤ (freeBits s.bitMapData dataBits).card
  | .read objid size offset => ∃ n c : ℕ, objid = n + 2 ∧ c ≤ 4100 ∧ Written s n c ∧
      offset + size ≤ blockSize * c
  | .destroy _ | .find _ | .stat _ => True

variable (h : Agree s t)
include h

/-- The devices moved, and the blocks read as before. -/
lemma Agree.reread {dev dev' : Device} (hd : SameBlocks .objfs s.dev dev)
    (hd' : SameBlocks .objfsCached t.dev dev') :
    Agree { s with dev := dev } { t with dev := dev' } := by
  have hval := hd.value h.plain
  have hval' := hd'.value h.cached
  refine ⟨hd.storeOk h.plain, hd'.storeOk h.cached, h.objs, h.inodes, h.dirty, h.temp, h.lock,
    by rw [hval, hval', h.values], fun r hr => ?_, fun q hq => ?_⟩
  · rw [hval] at hr ⊢
    have hv := h.plain.valid hr
    exact (hd'.views _ hv).trans ((h.views r hr).trans (hd.views _ hv).symm)
  · exact (hd'.low q hq).trans ((h.low q hq).trans (hd.low q hq).symm)

lemma read_agree {objid : ℤ} {size offset : ℕ} {names : CString → Prop}
    (hcall : Call names s (.read objid size offset)) :
    Option.Rel (Alike Agree) (exec .objfs s (.read objid size offset))
      (exec .objfsCached t (.read objid size offset)) := by
  obtain ⟨n, c, rfl, hc, hwritten, hrange⟩ := hcall
  by_cases hin : InObjs n
  · obtain ⟨dev, hread, hd⟩ := objstoreRead_written h.plain hin hc hwritten hrange
    obtain ⟨dev', hread', hd'⟩ := objstoreRead_written h.cached hin hc
      (fun k hk => by rw [h.values]; exact hwritten k hk) hrange
    have hbytes : pageBytes (fun i => blockOf .objfsCached t n (offset / blockSize + i)) size =
        pageBytes (fun i => blockOf .objfs s n (offset / blockSize + i)) size := by
      refine pageBytes_congr fun i hi => ?_
      have hrange' : offset + size ≤ 4096 * c := hrange
      have hk : offset / 4096 + i < c := by
        rw [lt_totalBlocks] at hi
        omega
      rw [blockOf, h.values]
      exact h.views _ (hwritten _ hk)
    rw [hbytes] at hread'
    rw [exec, exec, hread, hread']
    exact .some ⟨h.reread hd hd', rfl⟩
  · have hid : ¬((n : ℤ) + 2 < 2) := by omega
    have hn : ((n : ℤ) + 2 - 2).toNat = n := by omega
    rw [exec, exec, objstoreRead, objstoreRead, if_neg hid, if_neg hid]
    simp only [hn, if_neg hin]
    exact .none

lemma write_agree {objid : ℤ} {buf : Memory} {size offset : ℕ} {names : CString → Prop}
    (hcall : Call names s (.write objid buf size offset)) :
    Option.Rel (Alike Agree) (exec .objfs s (.write objid buf size offset))
      (exec .objfsCached t (.write objid buf size offset)) := by
  obtain ⟨n, rfl, hlive, -, hk, -, hv, hfree⟩ := hcall
  by_cases hin : WriteInBounds s n (offset / blockSize) size
  · have hin' : WriteInBounds t n (offset / blockSize) size := by
      rw [WriteInBounds, h.lock]
      exact hin
    obtain ⟨b, c, hp⟩ := exists_picks hfree
    rw [exec, exec, objstoreWrite_hung h.plain hin hv hp,
      objstoreWrite_hung h.cached hin' (by rwa [h.values]) (h.picks hp)]
    exact .some ⟨hung_agree h hlive hk hv hp, rfl⟩
  · have hout : ¬WriteInBounds t n (offset / blockSize) size := by
      rw [WriteInBounds, h.lock]
      exact hin
    rw [exec, exec, objstoreWrite_out hin, objstoreWrite_out hout]
    exact .none

lemma find_agree : Option.Rel (Alike Agree) (exec .objfs s (.find key))
    (exec .objfsCached t (.find key)) := by
  rcases s.keyAt_or_noKey key with ⟨n, hn⟩ | hnone
  · have hid : objId t.objs n = objId s.objs n := by rw [h.objs]
    rw [exec, exec, findObjectId_some hn, findObjectId_some (h.keyAt hn), hid]
    exact .some ⟨⟨h.plain.recall _, h.cached.recall _, h.objs, h.inodes, h.dirty, rfl, h.lock,
      h.values, h.views, h.low⟩, rfl⟩
  · rw [exec, exec, findObjectId_none hnone, findObjectId_none (h.noKey hnone)]
    exact .some ⟨h, rfl⟩

lemma stat_agree (ino : ℕ) : Option.Rel (Alike Agree) (exec .objfs s (.stat ino))
    (exec .objfsCached t (.stat ino)) := by
  have hdetails : fillupSizeDetails t ino = fillupSizeDetails s ino := by
    rw [fillupSizeDetails, fillupSizeDetails, h.temp, h.objs]
  rw [exec, exec, hdetails]
  cases fillupSizeDetails s ino <;> exact .some ⟨h, rfl⟩

/-- The two builds do the same on every call. -/
theorem exec_agree {op : Op} (hcall : Call Fits s op) :
    Option.Rel (Alike Agree) (exec .objfs s op) (exec .objfsCached t op) := by
  cases op with
  | create key => exact create_agree h hcall
  | rename key newname => exact rename_agree h hcall
  | destroy key => exact destroy_agree h
  | write objid buf size offset => exact write_agree h hcall
  | read objid size offset => exact read_agree h hcall
  | find key => exact find_agree h
  | stat ino => exact stat_agree h ino

end Runs

section Images

/-- The image `d'` has the object table, the bitmaps and the allocated data blocks of `d`;
`s` is the store that was unmounted to `d`. -/
structure SameImage (s : Store) (d d' : Device) : Prop where
  table : ∀ i : ℕ, i < objectBlock → d'.disk.image i = d.disk.image i
  bitmaps : ∀ i : ℕ, i < inodeBitBlocks + dataBlocks →
    d'.disk.image (objectBlock + i : ℕ) = d.disk.image (objectBlock + i : ℕ)
  blocks : ∀ b : ℕ, bit s.bitMapData b = true →
    d'.disk.image (writeOffset + b) = d.disk.image (writeOffset + b)

/-- The words of a bitmap are made of its bits. -/
lemma words_congr {w w' : Words} (h : ∀ n, bit w' n = bit w n) (i : ℕ) : w' i = w i := by
  refine BitVec.eq_of_getLsbD_eq fun j hj => ?_
  have hbit := h (32 * i + j)
  rwa [bit, bit, show (32 * i + j) / 32 = i by omega, show (32 * i + j) % 32 = j by omega] at hbit

lemma wordsBlock_congr {w w' : Words} (h : ∀ i : ℕ, w' i = w i) (i : ℕ) :
    wordsBlock w' i = wordsBlock w i := by
  funext x
  rw [wordsBlock, wordsBlock, h]

theorem Agree.images (h : Agree s t) : SameImage s (objstoreDestroy s) (objstoreDestroy t) := by
  have hu := objstoreDestroy_unmounted h.plain.device
  have hu' := objstoreDestroy_unmounted h.cached.device
  obtain ⟨hob, hib, hdb, hw⟩ := layout
  refine ⟨fun i hi => ?_, fun i hi => ?_, fun b hb => ?_⟩
  · rw [hu.table i hi, hu'.table i hi, h.dirty, h.objs, h.low i (by omega)]
  · by_cases hi' : i < inodeBitBlocks
    · rw [hu.inodes i hi', hu'.inodes i hi', h.inodes]
    · obtain ⟨j, rfl⟩ : ∃ j, i = 31 + j := ⟨i - 31, by omega⟩
      rw [← Nat.add_assoc, hu.data j (by omega), hu'.data j (by omega)]
      exact wordsBlock_congr (words_congr h.bits) j
  · obtain ⟨r, hr, -⟩ := (h.plain.accounts.ledger.used_iff b).mp hb
    have hvalid := validBlock_ofNat (h.plain.accounts.lt (h.plain.accounts.owner_iff.mp hr))
    rw [hu.blocks b hvalid, hu'.blocks b hvalid]
    exact h.used hb

/-- What a caller sees of two runs, and what the unmounts leave. -/
def SameRuns (d d' : Device) (ops : List Op) : Prop :=
  Option.Rel (fun x y => x.2 = y.2 ∧ SameImage x.1 (objstoreDestroy x.1) (objstoreDestroy y.1))
    (execAll .objfs (objstoreInit d) ops) (execAll .objfsCached (objstoreInit d') ops)

/-- From empty disks on the two builds give the same replies in every run whose names
fit the key field, and leave the same image. -/
theorem builds_agree (d d' : Device) (hd : Blank d) (hd' : Blank d') (ops : List Op)
    (hops : Along (exec .objfs) (Call Fits) (objstoreInit d) ops) : SameRuns d d' ops := by
  have hstart : Agree (objstoreInit d) (objstoreInit d') :=
    empty_agree (objstoreInit_empty hd) (objstoreInit_empty hd')
  have hstep : ∀ s t op, Agree s t → Call Fits s op →
      Option.Rel (Alike Agree) (exec .objfs s op) (exec .objfsCached t op) :=
    fun _ _ _ h hcall => exec_agree h hcall
  have hrun : Option.Rel (Alike Agree) (execAll .objfs (objstoreInit d) ops)
      (execAll .objfsCached (objstoreInit d') ops) := hops.agree hstep hstart
  unfold SameRuns
  generalize execAll .objfs (objstoreInit d) ops = x at hrun ⊢
  generalize execAll .objfsCached (objstoreInit d') ops = y at hrun ⊢
  cases hrun with
  | none => exact .none
  | some h => exact .some ⟨h.2, h.1.images⟩

/-- One page of ones. -/
def ones : Memory := fun _ => 1

/-- The first object of a build, with a page of ones in its first block. -/
def first (build : Build) : Store :=
  hung build (created (objstoreInit blankDevice) 0 keyA) 0 0 blockSize 0 1
    (bufferPage ones blockSize)

section First

variable (build : Build)

lemma first_exec : exec build (created (objstoreInit blankDevice) 0 keyA)
    (.write ((0 : ℕ) + 2) ones blockSize (blockSize * 0)) =
      some (first build, { ret := blockSize }) :=
  (objstoreInit_empty blankDevice_blank).write build (by decide) (by norm_num) ones

lemma first_spec : StoreOk build True (first build) ∧
    Filled build (created (objstoreInit blankDevice) 0 keyA) (first build) 0 0 blockSize 0
      (bufferPage ones blockSize) := by
  have hempty := objstoreInit_empty blankDevice_blank
  have hfits : Fits keyA := by decide
  exact hung_spec (hempty.createdOk hfits) (by simp [live_created]) (by norm_num)
    (hempty.createdValue hfits _) (hempty.picks 0)

lemma first_direct : direct (first build).objs 0 0 = writeOffset := by
  have hdata := (first_spec build).2.data _ (Ref.isData_ofBlock 0 0)
  rwa [if_pos rfl, Nat.cast_zero, add_zero, value_ofBlock_lt (by norm_num)] at hdata

lemma written_one {u : Store} {k c : ℕ} (h : direct u.objs 0 0 = writeOffset) (hk : k = 0)
    (hc : c = 1) : Written u k c := by
  intro j hj
  obtain rfl : j = 0 := by omega
  rw [hk, value_ofBlock_lt (by norm_num), h, writeOffset_eq]
  norm_num

lemma first_call {names : CString → Prop} {k : ℕ} (hk : k = 0) :
    Call names (created (objstoreInit blankDevice) 0 keyA)
      (.write ((0 : ℕ) + 2) ones blockSize (blockSize * k)) := by
  have hempty := objstoreInit_empty blankDevice_blank
  have hdiv : blockSize * k / blockSize = k := Nat.mul_div_cancel_left k (by norm_num)
  refine ⟨0, rfl, by simp [live_created], le_rfl, by rw [hdiv]; omega, fun j hj => ?_,
    hempty.createdValue (by decide) _, hempty.createdCost 0 _⟩
  rw [hdiv] at hj
  omega

end First

/-- An object, its first block, and the block read back. -/
def firstCalls : List Op :=
  [.create keyA, .write ((0 : ℕ) + 2) ones blockSize (blockSize * 0),
    .read ((0 : ℕ) + 2) blockSize 0]

theorem builds_agree_first : ∃ s t rs,
    execAll .objfs (objstoreInit blankDevice) firstCalls = some (s, rs) ∧
    execAll .objfsCached (objstoreInit blankDevice) firstCalls = some (t, rs) ∧
    SameImage s (objstoreDestroy s) (objstoreDestroy t) := by
  have hempty := objstoreInit_empty blankDevice_blank
  have hcreate : exec .objfs (objstoreInit blankDevice) (.create keyA) = _ :=
    hempty.create (by decide)
  obtain ⟨dev, hread, -⟩ := objstoreRead_written
    (first_spec .objfs).1 (show InObjs 0 by decide) (show 1 ≤ 4100 by norm_num)
    (written_one (first_direct .objfs) rfl rfl) (show 0 + blockSize ≤ blockSize * 1 by norm_num)
  obtain ⟨s, r, hreads⟩ : ∃ s r, exec .objfs (first .objfs) (.read ((0 : ℕ) + 2) blockSize 0) =
      some (s, r) := ⟨_, _, by rw [exec, hread, Option.map_some]⟩
  have htrace : Machine.Trace (exec .objfs) (Call Fits) (objstoreInit blankDevice) firstCalls s
      [{ ret := 2 }, { ret := blockSize }, r] :=
    .cons (show Fits keyA by decide) hcreate (.cons (first_call rfl) (first_exec .objfs)
      (.cons ⟨0, 1, rfl, by norm_num, written_one (first_direct .objfs) rfl rfl, by norm_num⟩
        hreads (.nil _)))
  have hagree := builds_agree blankDevice blankDevice blankDevice_blank blankDevice_blank _
    htrace.along
  have hrun : execAll .objfs (objstoreInit blankDevice) firstCalls = _ := htrace.run
  rw [SameRuns, hrun] at hagree
  generalize hcached : execAll .objfsCached (objstoreInit blankDevice) firstCalls = y at hagree
  cases hagree with
  | @some a b hab =>
    obtain ⟨t, rs⟩ := b
    obtain ⟨rfl, himage⟩ : _ = rs ∧ _ := hab
    exact ⟨s, t, _, hrun, rfl, himage⟩

end Images

section Overflow

variable (build : Build) {u : Store}

lemma releaseDirect_skip {l : ℕ} (hz : direct u.objs n l = 0) : releaseDirect build n u l = u := by
  rw [releaseDirect, if_neg (not_not_intro hz)]

lemma releaseIndirect_skip {l : ℕ} (hz : indirect u.objs n l = 0) :
    releaseIndirect build n u l = u := by
  rw [releaseIndirect, if_neg (not_not_intro hz)]

lemma foldl_skip {f : Store → ℕ → Store} (ls : List ℕ) (h : ∀ l ∈ ls, f u l = u) :
    ls.foldl f u = u := by
  induction ls with
  | nil => rfl
  | cons l ls ih =>
    rw [List.foldl_cons, h l List.mem_cons_self]
    exact ih fun l' hl' => h l' (List.mem_cons_of_mem l hl')

/-- The object of slot `n` has one block, behind its first pointer: it alone is dropped. -/
lemma destroyed_dev (hv : direct u.objs n 0 ≠ 0)
    (hz : ∀ j, 1 ≤ j → j < 8 → pointer u.objs n j = 0) :
    (destroyed build u n).dev = dropBlock build u.dev (direct u.objs n 0 - writeOffset) := by
  have hv' : direct (unlinked u n).objs n 0 = direct u.objs n 0 := pointer_setSize (by norm_num)
  obtain ⟨w, hw⟩ : ∃ w, w = releaseDirect build n (unlinked u n) 0 := ⟨_, rfl⟩
  have hwstate : w = releaseBlock build
      { unlinked u n with objs := setPointer (unlinked u n).objs n 0 0 }
      (direct u.objs n 0 - writeOffset) := by
    rw [hw, releaseDirect, hv', if_pos hv]
  have hwdev : w.dev = dropBlock build u.dev (direct u.objs n 0 - writeOffset) := by
    rw [hwstate]
    rfl
  have hrest : ∀ j, 1 ≤ j → j < 8 → pointer w.objs n j = 0 := by
    intro j hj hj'
    rw [hwstate]
    refine (pointer_setPointer_ne (by norm_num) hj' (Or.inr (by omega))).trans ?_
    exact (pointer_setSize hj').trans (hz j hj hj')
  have hdirects : (List.range 4).foldl (releaseDirect build n) (unlinked u n) = w := by
    rw [show List.range 4 = 0 :: [1, 2, 3] from rfl, List.foldl_cons, ← hw]
    refine foldl_skip _ fun l hl => releaseDirect_skip build (hrest l ?_ ?_) <;>
      simp only [List.mem_cons, List.not_mem_nil, or_false] at hl <;> omega
  have hindirects : (List.range 4).foldl (releaseIndirect build n) w = w :=
    foldl_skip _ fun l hl => releaseIndirect_skip build
      (hrest (4 + l) (by omega) (by have := List.mem_range.mp hl; omega))
  rw [destroyed, hdirects, hindirects, hwdev]

/-- A key of 50 bytes, the last two of them the number 22815. -/
def longKey : CString := ⟨List.replicate 48 97 ++ [0x1f, 0x59], by simp⟩

/-- A second object under the long key. -/
def second (build : Build) : Store := created (first build) 1 longKey

lemma second_exec : exec build (first build) (.create longKey) =
    some (second build, { ret := (1 + 2 : ℕ) }) := by
  have hempty := objstoreInit_empty blankDevice_blank
  have hbits : (first build).bitMapInode = setBit (objstoreInit blankDevice).bitMapInode 0 :=
    (first_spec build).2.inodes
  have hfirst : FirstFree (first build).bitMapInode slotCount 1 := by
    have hdead : ∀ m, bit (objstoreInit blankDevice).bitMapInode m = false := hempty.live
    refine ⟨by decide, by simp [hbits, hdead], fun m hm => ?_⟩
    obtain rfl : m = 0 := by omega
    simp [hbits]
  rw [exec, createObject_eq hfirst, if_pos (by decide), Option.map_some]
  rfl

/-- The record of the second object was empty before. -/
lemma first_record {a : ℕ} (ha : 96 ≤ a) : (first build).objs a = 0 := by
  have hempty := objstoreInit_empty blankDevice_blank
  have hok : StoreOk build True (created (objstoreInit blankDevice) 0 keyA) :=
    hempty.createdOk (by decide)
  have htouches := hung_touches (z := blockSize) (p := bufferPage ones blockSize) hok
    (show 0 < 4100 by norm_num) (hempty.picks 0)
  have hcreated := created_touches (n := 0) (objstoreInit blankDevice) (show Fits keyA by decide)
  rw [first, htouches.objs a (Or.inr (by omega)), hcreated.objs a (Or.inr (by omega)), hempty.objs]

/-- What the last bytes of the key make of the pointers. -/
lemma longKey_pointer : ∀ j : Fin 8, pointer (setKey (fun _ => 0) 1 longKey) 1 j =
    if j = 0 then writeOffset else 0 := by decide

lemma second_pointer (j : Fin 8) :
    pointer (second build).objs 1 j = if j = 0 then writeOffset else 0 := by
  rw [← longKey_pointer]
  refine loadInt_congr fun i hi => ?_
  generalize hx : 96 * 1 + 64 + 4 * (j : ℕ) + i = x
  have hid : setId (first build).objs 1 (1 + 2 : ℕ) x = 0 :=
    (storeBytes_of_not_mem (by omega)).trans (first_record build (by omega))
  have hobjs : (second build).objs =
    setKey (setId (first build).objs 1 (1 + 2 : ℕ)) 1 longKey := rfl
  rw [hobjs, setKey, setKey, strcpy, strcpy]
  by_cases hin : keyAddr 1 ≤ x ∧ x < keyAddr 1 + (longKey.length + 1)
  · rw [storeBytes_of_mem hin, storeBytes_of_mem hin]
  · have hout : x < keyAddr 1 ∨ keyAddr 1 + (longKey.length + 1) ≤ x := by omega
    rw [storeBytes_of_not_mem hout, storeBytes_of_not_mem hout, hid]

/-- The long key finds the second object. -/
lemma second_keyAt : (second build).KeyAt longKey 1 := by
  have hcreated : Resized (created (objstoreInit blankDevice) 0 keyA).objs (first build).objs 0
      blockSize := (first_spec build).2.record
  have hself : keyIs (created (objstoreInit blankDevice) 0 keyA).objs 0 keyA = true :=
    keyIs_setKey_self.mpr rfl
  have hfirst : keyIs (second build).objs 0 keyA = true := by
    have hkept : keyIs (first build).objs 0 keyA = true :=
      (hcreated.keys 0 keyA (by decide)).trans hself
    refine (strcmpEq_storeBytes (by decide)).trans ?_
    exact (keyIs_setId (by decide)).trans hkept
  have hnamed : (second build).named longKey 1 = true :=
    named_iff.mpr ⟨by rw [second, live_created]; simp, keyIs_setKey_self.mpr rfl⟩
  refine ⟨by decide, hnamed, fun m hm => ?_⟩
  obtain rfl : m = 0 := by omega
  by_contra hother
  rw [Bool.not_eq_false] at hother
  have hsame := keyIs_inj hfirst (named_iff.mp hother).2
  exact absurd hsame (by decide)

/-- The second object destroyed: its long key had made block 0 its own. -/
def third (build : Build) : Store := destroyed build (second build) 1

lemma third_exec :
    exec build (second build) (.destroy longKey) = some (third build, { ret := 0 }) := by
  rw [exec, destroyObject_eq (second_keyAt build), if_pos (by decide), third]
  generalize destroyed build (second build) 1 = u
  rfl

lemma third_dev : (third build).dev = dropBlock build (first build).dev 0 := by
  have hzero := second_pointer build 0
  rw [if_pos rfl] at hzero
  have hdirect : direct (second build).objs 1 0 = writeOffset := hzero
  have hdev := destroyed_dev build (u := second build) (n := 1)
    (by rw [hdirect, writeOffset_eq]; norm_num)
    fun j hj hj' => (second_pointer build ⟨j, hj'⟩).trans (if_neg (by simp [Fin.ext_iff]; omega))
  rw [hdirect, sub_self] at hdev
  exact hdev

lemma third_direct : direct (third build).objs 0 0 = writeOffset := by
  have htable := (destroyed_table build (second build) 1).objs
  refine Eq.trans (loadInt_congr fun i hi => ?_) (first_direct build)
  rw [third, htable]
  refine (sameOutside_clearRecord _ _ (Or.inl (by omega))).trans ?_
  exact (storeBytes_of_not_mem (by simp only [keyAddr]; omega)).trans
    (storeBytes_of_not_mem (by omega))

/-- What the first object reads as after the second is gone. -/
def survivor (build : Build) : Block := (loadBlock build (third build).dev 0).2

lemma third_read : ∃ s, exec build (third build) (.read ((0 : ℕ) + 2) blockSize 0) =
    some (s, ⟨blockSize, pageBytes (fun _ => survivor build) blockSize, none⟩) := by
  obtain ⟨dev, hread⟩ := objstoreRead_direct build (third build) (n := 0) (by decide)
    (show 0 / blockSize = 0 by norm_num) (by norm_num) (show totalBlocks blockSize = 1 from rfl)
  rw [third_direct, sub_self] at hread
  exact ⟨_, by rw [exec, hread, Option.map_some, survivor]⟩

lemma first_dev : (first build).dev =
    storeBlock build (objstoreInit blankDevice).dev 0 (bufferPage ones blockSize) := by
  rw [first, hung, if_pos (by norm_num)]
  rfl

lemma first_view : view build (first build) 0 = bufferPage ones blockSize :=
  (first_spec build).2.here

/-- The uncached build still has the block. -/
lemma survivor_objfs : survivor .objfs = bufferPage ones blockSize := by
  have hvalid : ValidBlock 0 := validBlock_ofNat (b := 0) (by decide)
  have hdrop : ∀ d, dropBlock .objfs d 0 = d := fun _ => rfl
  rw [survivor, third_dev, hdrop]
  exact (loaded (first_spec .objfs).1 hvalid).trans (first_view .objfs)

/-- The cached build dropped it before it reached the disk. -/
lemma survivor_objfsCached : survivor .objfsCached = fun _ => 0 := by
  have hvalid : ValidBlock 0 := validBlock_ofNat (b := 0) (by decide)
  obtain ⟨disk, hdev, hblank⟩ := (objstoreInit_empty blankDevice_blank).dev
  have hinit : (device .objfsCached).Ok (objstoreInit blankDevice).dev := by
    rw [hdev]
    exact init_ok hblank.healthy
  have hfirst : (device .objfsCached).Ok (first .objfsCached).dev :=
    (first_spec .objfsCached).1.device
  rw [survivor, third_dev, loadBlock_val (dropBlock_ok hfirst hvalid) hvalid, first_dev,
    dropped_view hinit hvalid, hdev, init_view hvalid]
  exact hblank.zero _

/-- The first object and its block, a second object with the long key, and the block read. -/
def longKeyCalls : List Op :=
  [.create keyA, .write ((0 : ℕ) + 2) ones blockSize (blockSize * 0), .create longKey,
    .destroy longKey, .read ((0 : ℕ) + 2) blockSize 0]

lemma longKey_trace : ∃ s, Machine.Trace (exec build) (Call fun _ => True)
    (objstoreInit blankDevice) longKeyCalls s
    [{ ret := 2 }, { ret := blockSize }, { ret := (1 + 2 : ℕ) }, { ret := 0 },
      ⟨blockSize, pageBytes (fun _ => survivor build) blockSize, none⟩] := by
  have hempty := objstoreInit_empty blankDevice_blank
  have hcreate : exec build (objstoreInit blankDevice) (.create keyA) = _ :=
    hempty.create (by decide)
  have hwritten : Written (third build) 0 1 := written_one (third_direct build) rfl rfl
  obtain ⟨s, hread⟩ := third_read build
  exact ⟨s, .cons trivial hcreate (.cons (first_call rfl) (first_exec build)
    (.cons trivial (second_exec build) (.cons trivial (third_exec build)
      (.cons ⟨0, 1, rfl, by norm_num, hwritten, by norm_num⟩ hread (.nil _)))))⟩

/-- A second object whose key runs into its first pointer takes the first object's
block with it, but only where blocks are cached. -/
theorem long_key_separates_builds : ¬∀ ops,
    Along (exec .objfs) (Call fun _ => True) (objstoreInit blankDevice) ops →
      SameRuns blankDevice blankDevice ops := by
  intro hclaim
  obtain ⟨s, hs⟩ := longKey_trace .objfs
  obtain ⟨t, ht⟩ := longKey_trace .objfsCached
  have hrun : execAll .objfs (objstoreInit blankDevice) longKeyCalls = _ := hs.run
  have hrun' : execAll .objfsCached (objstoreInit blankDevice) longKeyCalls = _ := ht.run
  have hsame := hclaim longKeyCalls hs.along
  rw [SameRuns, hrun, hrun', survivor_objfs, survivor_objfsCached] at hsame
  cases hsame with
  | some h =>
    have hbytes := h.1
    simp only [List.cons.injEq, Reply.mk.injEq, true_and, and_true] at hbytes
    have hbyte := congrArg (fun l => l[0]?) hbytes
    have hpos : 0 < blockSize := by decide
    simp only [pageBytes, List.getElem?_map, List.getElem?_range hpos, Option.map_some] at hbyte
    exact absurd hbyte (by decide)

end Overflow

end OsAssignments.BuildAgreement
