import OsAssignments.Machine
import OsAssignments.PageWalks

/-!
# The invariant of demand paging

Pages stay below `next_free`, tables and pages form a tree of allocated frames, and
the write bits on the way to a page say together whether its segment may be
written. Upper entries are shared between segments and only ever gain write bits,
so the last entry has to carry the permission by itself.
-/
namespace OsAssignments.PagingInvariant

open Paging RadixTree
open Machine (Along)

variable {α : Type} {A : Allocator α} {k k' k'' : Kernel α} {a b rip : Word} {s t : MmSeg}

section Addresses

/-- The addresses that translation is defined for. -/
def Canonical (a : Word) : Prop := a.toNat < 2 ^ 47 ∨ 2 ^ 64 - 2 ^ 47 ≤ a.toNat

instance (a : Word) : Decidable (Canonical a) := inferInstanceAs (Decidable (_ ∨ _))

def Aligned (a : Word) : Prop := a.toNat % 4096 = 0

/-- The addresses a segment can reach. -/
def Holds (m : MmSegment) (a : Word) : Prop :=
  m.start ≤ a ∧ (a < m.limit ∨ a < m.nextFree)

/-- Two addresses of one page. -/
def SamePage (a b : Word) : Prop := a.toNat / 4096 = b.toNat / 4096

/-- The indices of an address determine its page. -/
theorem samePage_of_path (ha : Canonical a) (hb : Canonical b) (h : path a = path b) :
    SamePage a b := by
  simp only [path, List.cons.injEq, and_true, ← BitVec.toNat_inj, shift_toNat] at h
  simp only [Canonical] at ha hb
  unfold SamePage
  omega

lemma path_of_samePage (h : SamePage a b) : path a = path b := by
  unfold SamePage at h
  simp only [path, List.cons.injEq, and_true, ← BitVec.toNat_inj, shift_toNat]
  omega

lemma lt_of_samePage {c : Word} (hc : Aligned c) (h : SamePage a b) : a < c ↔ b < c := by
  unfold Aligned at hc
  unfold SamePage at h
  rw [BitVec.lt_def, BitVec.lt_def]
  omega

lemma holds_of_samePage {m : MmSegment} (hs : Aligned m.start) (hl : Aligned m.limit)
    (hf : Aligned m.nextFree) (h : SamePage a b) : Holds m a ↔ Holds m b := by
  rw [Holds, Holds, ← BitVec.not_lt, ← BitVec.not_lt, lt_of_samePage hs h, lt_of_samePage hl h,
    lt_of_samePage hf h]

end Addresses

section Sound

/-- The page of an address is present, by the code's own test. -/
def Valid (k : Kernel α) (a : Word) : Prop := isvalid k.mem a k.ctx.pgd = 1

instance (k : Kernel α) (a : Word) : Decidable (Valid k a) := inferInstanceAs (Decidable (_ = _))

/-- Segments are page-aligned and apart. -/
structure Layout (mms : MmSeg → MmSegment) : Prop where
  start : ∀ s, Aligned (mms s).start
  limit : ∀ s, Aligned (mms s).limit
  nextFree : ∀ s, Aligned (mms s).nextFree
  apart : ∀ s t a, Holds (mms s) a → Holds (mms t) a → s = t

/-- The process and its page table: the pages of DATA and RODATA lie below `next_free`, tables
and pages form a tree of allocated frames, and the write bits of a page agree with its segment. -/
structure Sound (A : Allocator α) (k : Kernel α) : Prop where
  layout : Layout k.ctx.mms
  table : TableOk A k
  grown : ∀ s, s = .data ∨ s = .rodata → ∀ a, Canonical a → Holds (k.ctx.mms s) a → Valid k a →
    a < (k.ctx.mms s).nextFree
  guarded : ∀ s, s ≠ .code → ∀ a, Canonical a → Holds (k.ctx.mms s) a → Valid k a →
    (k.WriteAlong (path a) ↔ MayWrite (k.ctx.mms s).accessFlags)

/-- The write bit of the last entry of an address. -/
def LeafWritable (k : Kernel α) (a : Word) : Prop :=
  ∀ g, k.lookup (tables a) = some g → Writable (k.mem g (shift a 12))

/-- The last entry of each page alone agrees with its segment. -/
def LeafGuarded (k : Kernel α) : Prop :=
  ∀ s, s ≠ .code → ∀ a, Canonical a → Holds (k.ctx.mms s) a → Valid k a →
    (LeafWritable k a ↔ MayWrite (k.ctx.mms s).accessFlags)

lemma leafWritable_of_writeAlong (h : k.WriteAlong (path a)) : LeafWritable k a := by
  rw [Kernel.WriteAlong, path_eq, allAlong_snoc] at h
  exact h.2

lemma leafWritable_iff {g : Frame} (hg : k.lookup (tables a) = some g) :
    LeafWritable k a ↔ Writable (k.mem g (shift a 12)) := by
  refine ⟨fun h => h g hg, fun h g' hg' => ?_⟩
  rw [hg, Option.some.injEq] at hg'
  rwa [← hg']

/-- A page that is where it was, with the last entry it had and no write bit less. -/
structure PageKept (k k' : Kernel α) (a : Word) : Prop where
  valid : Valid k a
  writes : k.WriteAlong (path a) → k'.WriteAlong (path a)
  leaf : LeafWritable k' a ↔ LeafWritable k a

lemma PageKept.guarded {flags : BitVec 32} (h : PageKept k k' a)
    (hg : k.WriteAlong (path a) ↔ MayWrite flags) (hl : LeafWritable k a ↔ MayWrite flags) :
    k'.WriteAlong (path a) ↔ MayWrite flags :=
  ⟨fun hw => hl.mp (h.leaf.mp (leafWritable_of_writeAlong hw)), fun hf => h.writes (hg.mpr hf)⟩

lemma PageKept.refl (h : Valid k a) : PageKept k k a := ⟨h, id, Iff.rfl⟩

lemma PageKept.trans (h : PageKept k k' a) (h' : PageKept k' k'' a) : PageKept k k'' a :=
  ⟨h.valid, fun hw => h'.writes (h.writes hw), h'.leaf.trans h.leaf⟩

/-- A page on whose way only write bits are added, and none in its last entry. -/
lemma pageKept_of_marks {page : Frame} (hpage : k.lookup (path a) = some page)
    (hctx : k'.ctx = k.ctx)
    (hkept : ∀ p f, p <+: path a → k.lookup p = some f → k'.lookup p = some f)
    (hmarks : ∀ p f i, p ++ [i] <+: path a → k.lookup p = some f → Writable (k.mem f i) →
      Writable (k'.mem f i))
    (hleaf : ∀ g, k.lookup (tables a) = some g →
      k'.mem g (shift a 12) = k.mem g (shift a 12)) : PageKept k k' a := by
  have hpre : tables a <+: path a := List.prefix_append _ [shift a 12]
  obtain ⟨g, hg⟩ : ∃ g, k.lookup (tables a) = some g := exists_follow_of_isPrefix hpre hpage
  refine ⟨isvalid_iff.mpr ⟨page, hpage⟩, fun hw => ?_, ?_⟩
  · rw [Kernel.WriteAlong, hctx]
    refine hw.mono (fun p f hp hf => ?_) hmarks hpage
    have hf' := hkept p f hp hf
    rwa [Kernel.lookup, hctx] at hf'
  · rw [leafWritable_iff hg, leafWritable_iff (hkept _ g hpre hg), hleaf g hg]

end Sound

section Steps

variable {code address : Word}

lemma prefix_length_lt {p q : List Index} {i : Index} (h : p ++ [i] <+: q) :
    p.length < q.length := by
  have hlen := h.length_le
  rw [List.length_append, List.length_singleton] at hlen
  exact hlen

/-- The pages other than the one a fault enters. -/
lemma mapped_pageKept (h : Mapped A k k' code rip) (hne : path a ≠ path rip)
    (hv : Valid k' a) : PageKept k k' a := by
  obtain ⟨page, hpage'⟩ := isvalid_iff.mp hv
  have hpage : k.lookup (path a) = some page := (h.others _ rfl hne) ▸ hpage'
  have hwrites := h.toRaised.writeAlong (q := path a) (by simp [path]) hpage
  have hpre : tables a <+: path a := List.prefix_append _ [shift a 12]
  obtain ⟨g, hg⟩ : ∃ g, k.lookup (tables a) = some g := exists_follow_of_isPrefix hpre hpage
  refine ⟨isvalid_iff.mpr ⟨page, hpage⟩, hwrites, ?_⟩
  rw [leafWritable_iff hg, leafWritable_iff (h.kept _ g (by simp [tables]) hg),
    h.leaves _ g _ rfl hg hne]

/-- The pages other than the one taken out. -/
lemma released_pageKept (h : Released A k k' address) (hv : Valid k' a) :
    PageKept k k' a := by
  obtain ⟨page, hpage'⟩ := isvalid_iff.mp hv
  have hne : path a ≠ path address := by
    intro heq
    rw [heq, h.gone] at hpage'
    cases hpage'
  have hpage : k.lookup (path a) = some page := (h.others _ (by simp [path]) hne) ▸ hpage'
  refine pageKept_of_marks hpage h.ctx (fun p f hp hf => ?_) (fun p f i hp hf hw => ?_)
    fun g hg => h.words _ g _ (by simp [tables]) hg hne
  · rw [h.others p (hp.length_le.trans (by simp [path])), hf]
    rintro rfl
    exact hne (hp.eq_of_length rfl).symm
  · rw [h.words p f i (prefix_length_lt hp) hf]
    · exact hw
    · intro heq
      rw [heq] at hp
      exact hne (hp.eq_of_length rfl).symm

/-- The page of a fault has the permission of its segment afterwards. -/
lemma mapped_guarded (h : Mapped A k k' code rip) (hpath : path a = path rip) :
    (k'.WriteAlong (path a) ↔ Writable code) ∧ (LeafWritable k' a ↔ Writable code) := by
  obtain ⟨g, page, hg, -, hentry⟩ := h.entry
  have hparts : tables a = tables rip ∧ shift a 12 = shift rip 12 := by
    rw [path_eq, path_eq] at hpath
    obtain ⟨htables, hlast⟩ := List.append_inj' hpath rfl
    exact ⟨htables, List.singleton_injective hlast⟩
  have hleaf : LeafWritable k' a ↔ Writable code := by
    rw [leafWritable_iff (hparts.1 ▸ hg), hparts.2]
    exact hentry
  refine ⟨⟨fun hw => hleaf.mp (leafWritable_of_writeAlong hw), fun hw => ?_⟩, hleaf⟩
  rw [hpath]
  exact h.along hw

lemma pages_toNat {n : Word} (hn : 4096 * n.toNat < 2 ^ 64) :
    (n * 4096).toNat = 4096 * n.toNat := by
  have hpage : (4096 : Word).toNat = 4096 := rfl
  rw [BitVec.toNat_mul, hpage]
  omega

lemma requested_or (flag : Word) : requested flag = .data ∨ requested flag = .rodata := by
  unfold requested
  split_ifs
  · exact Or.inr rfl
  · exact Or.inl rfl

/-- Which branch of the fault handler maps the page. -/
lemma handlePageFault_cases {errorCode : Word} (h : handlePageFault A rip errorCode k = some k') :
    ∃ s, s ≠ .code ∧ Holds (k.ctx.mms s) rip ∧
      (s = .data ∨ s = .rodata → rip < (k.ctx.mms s).nextFree) ∧ ¬Present errorCode ∧
      mapPage A s rip k = some k' := by
  rw [handlePageFault] at h
  split_ifs at h with hdata hrodata hstack
  · obtain ⟨hstart, hnext, hcode⟩ := hdata
    exact ⟨.data, nofun, ⟨hstart, Or.inr hnext⟩, fun _ => hnext, not_not.mpr hcode, h⟩
  · obtain ⟨hstart, hnext, -, hcode⟩ := hrodata
    exact ⟨.rodata, nofun, ⟨hstart, Or.inr hnext⟩, fun _ => hnext, not_not.mpr hcode, h⟩
  · obtain ⟨hstart, hlimit, hcode⟩ := hstack
    exact ⟨.stack, nofun, ⟨hstart, Or.inl hlimit⟩, fun hor => hor.elim nofun nofun,
      not_not.mpr hcode, h⟩

variable (hA : Lawful A) (hs : Sound A k) (hl : LeafGuarded k)
include hA hs hl

/-- A fault that the hardware reports for an absent page keeps the invariant. -/
theorem fault_sound (hzero : ∀ page j, ¬Present (A.fill .osPt page j)) {errorCode : Word}
    (hrip : Canonical rip) (hcode : Present errorCode ↔ Valid k rip)
    (h : handlePageFault A rip errorCode k = some k') : Sound A k' ∧ LeafGuarded k' := by
  obtain ⟨s, hs', hin, hgrown, habsent, hmap⟩ := handlePageFault_cases h
  have hnone : k.lookup (path rip) = none := by
    rw [hcode, Valid, isvalid_iff] at habsent
    exact Option.eq_none_iff_forall_ne_some.mpr fun g hg => habsent ⟨g, hg⟩
  have hm := mapPage_spec hA hzero hs.table hnone hmap
  -- a page that is there now was there before, or is the page of the fault
  have hnew : ∀ t a, Canonical a → Holds (k.ctx.mms t) a → path a = path rip →
      t = s ∧ SamePage a rip := by
    intro t a ha hta hpath
    have hsame := samePage_of_path ha hrip hpath
    refine ⟨hs.layout.apart t s a hta ?_, hsame⟩
    exact (holds_of_samePage (hs.layout.start s) (hs.layout.limit s) (hs.layout.nextFree s)
      hsame).mpr hin
  refine ⟨⟨hm.ctx ▸ hs.layout, hm.ok, fun t ht a ha hta hv => ?_, fun t ht a ha hta hv => ?_⟩,
    fun t ht a ha hta hv => ?_⟩ <;> rw [hm.ctx] at hta ⊢ <;> by_cases hpath : path a = path rip
  · obtain ⟨rfl, hsame⟩ := hnew t a ha hta hpath
    exact (lt_of_samePage (hs.layout.nextFree t) hsame).mpr (hgrown ht)
  · exact hs.grown t ht a ha hta (mapped_pageKept hm hpath hv).valid
  · obtain ⟨rfl, -⟩ := hnew t a ha hta hpath
    exact (mapped_guarded hm hpath).1.trans writable_accessCode
  · have hkept := mapped_pageKept hm hpath hv
    exact hkept.guarded (hs.guarded t ht a ha hta hkept.valid) (hl t ht a ha hta hkept.valid)
  · obtain ⟨rfl, -⟩ := hnew t a ha hta hpath
    exact (mapped_guarded hm hpath).2.trans writable_accessCode
  · have hkept := mapped_pageKept hm hpath hv
    exact hkept.leaf.trans (hl t ht a ha hta hkept.valid)

omit hA in
/-- A segment is resized once the pages outside its new extent are gone. -/
lemma setNextFree_sound {w : Word} (hctx : k'.ctx = k.ctx) (hok : TableOk A k')
    (hkept : ∀ a, Valid k' a → PageKept k k' a) (halign : Aligned w)
    (hw : w ≤ (k.ctx.mms s).nextFree ∨ w ≤ (k.ctx.mms s).limit)
    (hgrown : ∀ a, Canonical a → Holds (k.ctx.mms s) a → Valid k' a → a < w) :
    Sound A (k'.setNextFree s w) ∧ LeafGuarded (k'.setNextFree s w) := by
  have hmms : ∀ t, ((k'.setNextFree s w).ctx.mms t).start = (k.ctx.mms t).start ∧
      ((k'.setNextFree s w).ctx.mms t).limit = (k.ctx.mms t).limit ∧
      ((k'.setNextFree s w).ctx.mms t).accessFlags = (k.ctx.mms t).accessFlags ∧
      ((k'.setNextFree s w).ctx.mms t).nextFree = if t = s then w else (k.ctx.mms t).nextFree := by
    intro t
    simp only [Kernel.setNextFree, Function.update_apply, hctx]
    split_ifs with hts
    · subst hts
      exact ⟨rfl, rfl, rfl, rfl⟩
    · exact ⟨rfl, rfl, rfl, rfl⟩
  have hholds : ∀ t a, Holds ((k'.setNextFree s w).ctx.mms t) a → Holds (k.ctx.mms t) a := by
    rintro t a ⟨hstart, hend⟩
    obtain ⟨h₁, h₂, -, h₄⟩ := hmms t
    rw [h₁] at hstart
    rw [h₂, h₄] at hend
    refine ⟨hstart, hend.elim Or.inl fun hlt => ?_⟩
    split_ifs at hlt with hts
    · subst hts
      exact hw.elim (fun h => Or.inr (by bv_omega)) fun h => Or.inl (by bv_omega)
    · exact Or.inr hlt
  refine ⟨⟨⟨fun t => ?_, fun t => ?_, fun t => ?_, fun t u a ht hu => ?_⟩,
    ⟨hok.tree, hok.allocated⟩,
    fun t ht a ha hta hv => ?_, fun t ht a ha hta hv => ?_⟩, fun t ht a ha hta hv => ?_⟩
  · rw [(hmms t).1]
    exact hs.layout.start t
  · rw [(hmms t).2.1]
    exact hs.layout.limit t
  · rw [(hmms t).2.2.2]
    split_ifs
    · exact halign
    · exact hs.layout.nextFree t
  · exact hs.layout.apart t u a (hholds t a ht) (hholds u a hu)
  · have hold := hholds t a hta
    rw [(hmms t).2.2.2]
    split_ifs with hts
    · exact hgrown a ha (hts ▸ hold) hv
    · exact hs.grown t ht a ha hold (hkept a hv).valid
  · rw [(hmms t).2.2.1]
    have hold := hholds t a hta
    have hpage := (hkept a hv).valid
    exact (hkept a hv).guarded (hs.guarded t ht a ha hold hpage) (hl t ht a ha hold hpage)
  · rw [(hmms t).2.2.1]
    have hold := hholds t a hta
    exact (hkept a hv).leaf.trans (hl t ht a ha hold (hkept a hv).valid)

omit hA in
theorem expand_sound {n flag : Word}
    (hn : (k.ctx.mms (requested flag)).nextFree.toNat + 4096 * n.toNat < 2 ^ 64) :
    Sound A (sysExpand n flag k).1 ∧ LeafGuarded (sysExpand n flag k).1 := by
  have hpages := pages_toNat (n := n) (by omega)
  simp only [sysExpand]
  split_ifs with hlimit
  · exact ⟨hs, hl⟩
  · have hsum : ((k.ctx.mms (requested flag)).nextFree + n * 4096).toNat =
        (k.ctx.mms (requested flag)).nextFree.toNat + 4096 * n.toNat := by
      rw [BitVec.toNat_add, hpages, Nat.mod_eq_of_lt hn]
    refine setNextFree_sound hs hl rfl hs.table (fun a hv => PageKept.refl hv) ?_
      (Or.inr (BitVec.not_lt.mp hlimit)) fun a ha hold hv => ?_
    · have halign := hs.layout.nextFree (requested flag)
      unfold Aligned at halign ⊢
      omega
    · have hlt := hs.grown _ (requested_or flag) a ha hold hv
      rw [BitVec.lt_def] at hlt ⊢
      omega

/-- What the loop of SHRINK leaves: the pages given back are gone, the others are kept. -/
structure Freed (A : Allocator α) (k k' : Kernel α) (curr : Word) (n : ℕ) : Prop where
  ctx : k'.ctx = k.ctx
  ok : TableOk A k'
  gone : ∀ i < n, k'.lookup (path (curr - 4096 * (BitVec.ofNat 64 i + 1))) = none
  kept : ∀ a, Valid k' a → PageKept k k' a

omit hs hl in
theorem freePages_spec (hk : TableOk A k) (curr : Word) (n : ℕ) :
    Freed A k (freePages A curr k.ctx.pgd n k) curr n := by
  induction n with
  | zero => exact ⟨rfl, hk, fun i hi => absurd hi (Nat.not_lt_zero i), fun a hv => PageKept.refl hv⟩
  | succ n ih =>
    rw [freePages_succ]
    generalize freePages A curr k.ctx.pgd n k = m at ih ⊢
    rw [← ih.ctx]
    have hr := free1_spec (curr - 4096 * (BitVec.ofNat 64 n + 1)) hA ih.ok
    refine ⟨hr.ctx.trans ih.ctx, hr.ok, fun i hi => ?_, fun a hv => ?_⟩
    · by_cases hpath : path (curr - 4096 * (BitVec.ofNat 64 i + 1)) =
          path (curr - 4096 * (BitVec.ofNat 64 n + 1))
      · rw [hpath]
        exact hr.gone
      · rw [hr.others _ (by simp [path]) hpath]
        refine ih.gone i (Nat.lt_of_le_of_ne (Nat.le_of_lt_succ hi) ?_)
        rintro rfl
        exact hpath rfl
    · have hkept := released_pageKept hr hv
      exact (ih.kept a hkept.valid).trans hkept

theorem shrink_sound {n flag : Word}
    (hn : 4096 * n.toNat ≤ (k.ctx.mms (requested flag)).nextFree.toNat) :
    Sound A (sysShrink A n flag k).1 ∧ LeafGuarded (sysShrink A n flag k).1 := by
  have hlt := (k.ctx.mms (requested flag)).nextFree.isLt
  have hpages := pages_toNat (n := n) (by omega)
  simp only [sysShrink]
  split_ifs with hstart
  · exact ⟨hs, hl⟩
  · have hf := freePages_spec hA hs.table (k.ctx.mms (requested flag)).nextFree n.toNat
    have halign := hs.layout.nextFree (requested flag)
    generalize hcurr : (k.ctx.mms (requested flag)).nextFree = curr at *
    generalize freePages A curr k.ctx.pgd n.toNat k = k' at hf ⊢
    rw [hf.ctx, hcurr]
    have hdiff : (curr - n * 4096).toNat = curr.toNat - 4096 * n.toNat := by bv_omega
    refine setNextFree_sound hs hl hf.ctx hf.ok hf.kept ?_ (Or.inl ?_) fun a ha hold hv => ?_
    · unfold Aligned at halign ⊢
      omega
    · rw [hcurr, BitVec.le_def]
      omega
    · have hbelow := hs.grown _ (requested_or flag) a ha hold (hf.kept a hv).valid
      rw [hcurr, BitVec.lt_def] at hbelow
      rw [BitVec.lt_def, hdiff]
      by_contra hge
      -- the page of `a` is one of those given back
      unfold Aligned at halign
      have hsame : SamePage a (curr - 4096 *
          (BitVec.ofNat 64 (curr.toNat / 4096 - 1 - a.toNat / 4096) + 1)) := by
        unfold SamePage
        bv_omega
      have hgone := hf.gone (curr.toNat / 4096 - 1 - a.toNat / 4096) (by omega)
      rw [← path_of_samePage hsame] at hgone
      obtain ⟨g, hg⟩ := isvalid_iff.mp hv
      rw [hgone] at hg
      cases hg

omit hA in
/-- A store in user mode touches no table. -/
theorem store_sound {byte : BitVec 8} :
    Sound A (userStore address byte k) ∧ LeafGuarded (userStore address byte k) := by
  obtain ⟨hctx, hframes, hmem⟩ := userStore_spec address byte hs.table
  generalize userStore address byte k = k' at hctx hframes hmem ⊢
  have hok := hs.table.congr hctx hframes hmem
  have hkept : ∀ a, Valid k' a → PageKept k k' a := by
    intro a hv
    obtain ⟨page, hpage'⟩ := isvalid_iff.mp hv
    have hpage : k.lookup (path a) = some page :=
      (lookup_congr hctx hmem (by simp [path])).symm.trans hpage'
    refine pageKept_of_marks hpage hctx (fun p f hp hf => ?_) (fun p f i hp hf hw => ?_)
      fun g hg => by rw [hmem _ g (by simp [tables]) hg]
    · exact (lookup_congr hctx hmem (hp.length_le.trans (by simp [path]))).trans hf
    · rwa [hmem p f (prefix_length_lt hp) hf]
  refine ⟨⟨hctx ▸ hs.layout, hok, fun t ht a ha hta hv => ?_, fun t ht a ha hta hv => ?_⟩,
    fun t ht a ha hta hv => ?_⟩ <;> rw [hctx] at hta ⊢ <;> have hpage := (hkept a hv).valid
  · exact hs.grown t ht a ha hta hpage
  · exact (hkept a hv).guarded (hs.guarded t ht a ha hta hpage) (hl t ht a ha hta hpage)
  · exact (hkept a hv).leaf.trans (hl t ht a ha hta hpage)

end Steps

section Runs

/-- Faults carry the error code that the hardware gives for the table, and requests do not wrap. -/
def Promised (k : Kernel α) : Event → Prop
  | .fault rip errorCode => Canonical rip ∧ (Present errorCode ↔ Valid k rip)
  | .expand n flag => (k.ctx.mms (requested flag)).nextFree.toNat + 4096 * n.toNat < 2 ^ 64
  | .shrink n flag => 4096 * n.toNat ≤ (k.ctx.mms (requested flag)).nextFree.toNat
  | .store _ _ => True

instance (k : Kernel α) : (e : Event) → Decidable (Promised k e)
  | .fault _ _ => inferInstanceAs (Decidable (_ ∧ (_ ↔ _)))
  | .expand _ _ => inferInstanceAs (Decidable (_ < _))
  | .shrink _ _ => inferInstanceAs (Decidable (_ ≤ _))
  | .store _ _ => inferInstanceAs (Decidable True)

theorem exec_sound (hA : Lawful A) (hzero : ∀ page, A.fill .osPt page = fun _ => 0)
    {e : Event} {r : Option Word} (hs : Sound A k) (hl : LeafGuarded k) (he : Promised k e)
    (h : Paging.exec A k e = some (k', r)) : Sound A k' ∧ LeafGuarded k' := by
  cases e with
  | fault rip errorCode =>
    rw [Paging.exec, Option.map_eq_some_iff] at h
    obtain ⟨m, hm, h⟩ := h
    rw [Prod.mk.injEq] at h
    obtain ⟨rfl, -⟩ := h
    have hempty : ∀ page j, ¬Present (A.fill .osPt page j) := by
      intro page j
      rw [hzero]
      exact not_present_zero
    exact fault_sound hA hs hl hempty he.1 he.2 hm
  | expand n flag =>
    rw [Paging.exec, Option.some.injEq] at h
    have hsound := expand_sound hs hl he
    rwa [h] at hsound
  | shrink n flag =>
    rw [Paging.exec, Option.some.injEq] at h
    have hsound := shrink_sound hA hs hl he
    rwa [h] at hsound
  | store address byte =>
    rw [Paging.exec, Option.some.injEq, Prod.mk.injEq] at h
    exact h.1 ▸ store_sound hs hl

/-- The invariant of demand paging, with the permission of a page in its last entry. -/
theorem paging_invariant (A : Allocator α) (hA : Lawful A)
    (hzero : ∀ page, A.fill .osPt page = fun _ => 0) (k k' : Kernel α) (es : List Event)
    (rs : List (Option Word)) (hs : Sound A k) (hl : LeafGuarded k)
    (hes : Along (Paging.exec A) Promised k es)
    (hrun : Machine.run (Paging.exec A) k es = some (k', rs)) :
    Sound A k' ∧ LeafGuarded k' :=
  hes.invariant (I := fun m => Sound A m ∧ LeafGuarded m)
    (fun _ _ _ _ hm he h => exec_sound hA hzero hm.1 hm.2 he h) ⟨hs, hl⟩ hrun

/-- An allocator that hands out frames in order; `n` is the next one and `l` lists the frames
below `n` that came back. -/
def bump : Allocator (ℕ × List Frame) where
  alloc _ := fun (n, l) =>
    if n < 2 ^ 20 then some (BitVec.ofNat 32 n, n + 1, l.filter (· ≠ BitVec.ofNat 32 n)) else none
  free _ f := fun (n, l) => (n, f :: l)
  fill region page := if region = .osPt then fun _ => 0 else page
  allocated := fun (n, l) f => f.toNat < n ∧ f ∉ l

lemma bump_lawful : Lawful bump := by
  have halloc : ∀ {region n l f a'}, bump.alloc region (n, l) = some (f, a') →
      n < 2 ^ 20 ∧ f.toNat = n ∧ a' = (n + 1, l.filter (· ≠ f)) := by
    intro region n l f a' h
    simp only [bump] at h
    split_ifs at h with hn
    simp only [Option.some.injEq, Prod.mk.injEq] at h
    obtain ⟨rfl, rfl⟩ := h
    refine ⟨hn, ?_, rfl⟩
    rw [BitVec.toNat_ofNat]
    omega
  refine ⟨?_, ?_, ?_, ?_⟩
  · rintro region ⟨n, l⟩ f a' h ⟨hlt, -⟩
    have := (halloc h).2.1
    omega
  · rintro region ⟨n, l⟩ f a' h
    obtain ⟨hn, hf, -⟩ := halloc h
    omega
  · rintro region ⟨n, l⟩ f a' h g
    obtain ⟨-, hf, rfl⟩ := halloc h
    simp only [bump, ne_eq, List.mem_filter, decide_eq_true_eq, not_and_or, not_not]
    constructor
    · rintro ⟨hlt, hmem | rfl⟩
      · by_cases hgf : g = f
        · exact Or.inl hgf
        · refine Or.inr ⟨?_, hmem⟩
          have : g.toNat ≠ f.toNat := fun h => hgf (BitVec.eq_of_toNat_eq h)
          omega
      · exact Or.inl rfl
    · rintro (rfl | ⟨hlt, hmem⟩)
      · exact ⟨by omega, Or.inr rfl⟩
      · exact ⟨by omega, Or.inl hmem⟩
  · rintro region ⟨n, l⟩ f - g
    simp only [bump, List.mem_cons, not_or]
    constructor
    · rintro ⟨hlt, hne, hmem⟩
      exact ⟨⟨hlt, hmem⟩, hne⟩
    · rintro ⟨⟨hlt, hmem⟩, hne⟩
      exact ⟨hlt, hne, hmem⟩

/-- A process with one page of DATA and one of RODATA, and nothing else. -/
def twoPages : MmSeg → MmSegment
  | .rodata => ⟨0x140000000, 0x140001000, 0x140001000, 1⟩
  | .data => ⟨0x180000000, 0x180001000, 0x180001000, 3⟩
  | _ => ⟨0, 0, 0, 0⟩

lemma twoPages_layout : Layout twoPages := by
  refine ⟨fun s => ?_, fun s => ?_, fun s => ?_, fun s t a hs ht => ?_⟩
  · cases s <;> rfl
  · cases s <;> rfl
  · cases s <;> rfl
  · simp only [Holds, BitVec.le_def, BitVec.lt_def] at hs ht
    cases s <;> cases t <;> simp [twoPages] at hs ht ⊢ <;> omega

/-- The process with an empty page table in frame 1. -/
def unmapped : Kernel (ℕ × List Frame) := ⟨fun _ _ => 0, (2, []), ⟨1, twoPages⟩⟩

lemma unmapped_sound : Sound bump unmapped ∧ LeafGuarded unmapped := by
  have hnone : ∀ f i, unmapped.tree f i = none := fun f i => tree_of_not_present not_present_zero
  have hinvalid : ∀ a, ¬Valid unmapped a := by
    intro a hv
    obtain ⟨g, hg⟩ := isvalid_iff.mp hv
    rw [path_eq, Kernel.lookup, follow_snoc, Option.bind_eq_some_iff] at hg
    obtain ⟨f, -, hf⟩ := hg
    rw [hnone] at hf
    cases hf
  refine ⟨⟨twoPages_layout, ⟨isTree_of_label (fun _ => []) fun f i g h => ?_, fun f hf => ?_⟩,
    fun s _ a _ _ hv => absurd hv (hinvalid a), fun s _ a _ _ hv => absurd hv (hinvalid a)⟩,
    fun s _ a _ _ hv => absurd hv (hinvalid a)⟩
  · rw [hnone] at h
    cases h
  · obtain ⟨p, -, hp⟩ := hf
    induction p using List.reverseRecOn with
    | nil =>
      cases hp
      exact ⟨by decide, List.not_mem_nil⟩
    | append_singleton p i _ =>
      rw [follow_snoc, Option.bind_eq_some_iff] at hp
      obtain ⟨g, -, hg⟩ := hp
      rw [hnone] at hg
      cases hg

/-- The page of DATA is given back, asked for again and entered, and so is that of RODATA; then
the page of DATA is given back. -/
def pagingRun : List Event :=
  [.shrink 1 1, .expand 1 1, .fault 0x180000000 2, .fault 0x140000000 0, .store 0x180000000 65,
    .shrink 1 1]

/-- The page of RODATA stays. -/
theorem paging_invariant_first : ∃ k' rs,
    Machine.run (Paging.exec bump) unmapped pagingRun = some (k', rs) ∧ Valid k' 0x140000000 ∧
      ¬Valid k' 0x180000000 ∧ Sound bump k' ∧ LeafGuarded k' := by
  have hruns : (Machine.run (Paging.exec bump) unmapped pagingRun).map (fun x =>
      (isvalid x.1.mem 0x140000000 x.1.ctx.pgd, isvalid x.1.mem 0x180000000 x.1.ctx.pgd)) =
        some (1, -1) := by decide +kernel
  obtain ⟨⟨k', rs⟩, hrun, hpages⟩ := Option.map_eq_some_iff.mp hruns
  rw [Prod.mk.injEq] at hpages
  refine ⟨k', rs, hrun, hpages.1, fun hv => ?_, paging_invariant bump bump_lawful (fun _ => rfl)
    unmapped k' pagingRun rs unmapped_sound.1 unmapped_sound.2 (by decide +kernel) hrun⟩
  rw [Valid, hpages.2] at hv
  exact absurd hv (by decide)

/-- The process with its RODATA page in frame 5, write-protected by the top entry only. -/
def topGuarded : Kernel (ℕ × List Frame) where
  mem f i :=
    if f = 1 ∧ i = 0 then 0x2005 else if f = 2 ∧ i = 5 then 0x3007
    else if f = 3 ∧ i = 0 then 0x4007 else if f = 4 ∧ i = 0 then 0x5007 else 0
  frames := (6, [])
  ctx := ⟨1, twoPages⟩

lemma topGuarded_tree {f g : Frame} {i : Index} (h : topGuarded.tree f i = some g) :
    f = 1 ∧ i = 0 ∧ g = 2 ∨ f = 2 ∧ i = 5 ∧ g = 3 ∨ f = 3 ∧ i = 0 ∧ g = 4 ∨
      f = 4 ∧ i = 0 ∧ g = 5 := by
  have hpres : Present (topGuarded.mem f i) := by
    by_contra hnone
    rw [tree_of_not_present hnone] at h
    cases h
  rw [tree_of_present hpres, Option.some.injEq] at h
  subst h
  simp only [topGuarded] at hpres ⊢
  split_ifs at hpres ⊢ with h₁ h₂ h₃ h₄
  · exact Or.inl ⟨h₁.1, h₁.2, by decide⟩
  · exact Or.inr (Or.inl ⟨h₂.1, h₂.2, by decide⟩)
  · exact Or.inr (Or.inr (Or.inl ⟨h₃.1, h₃.2, by decide⟩))
  · exact Or.inr (Or.inr (Or.inr ⟨h₄.1, h₄.2, by decide⟩))
  · exact absurd hpres not_present_zero

/-- The path to each of its frames. -/
def pathTo (f : Frame) : List Index :=
  if f = 1 then [] else if f = 2 then [0] else if f = 3 then [0, 5]
  else if f = 4 then [0, 5, 0] else [0, 5, 0, 0]

lemma topGuarded_label (f : Frame) (i : Index) (g : Frame) (h : topGuarded.tree f i = some g) :
    pathTo g = pathTo f ++ [i] := by
  obtain ⟨rfl, rfl, rfl⟩ | ⟨rfl, rfl, rfl⟩ | ⟨rfl, rfl, rfl⟩ | ⟨rfl, rfl, rfl⟩ :=
    topGuarded_tree h <;> decide

lemma topGuarded_table : TableOk bump topGuarded := by
  refine ⟨isTree_of_label pathTo topGuarded_label, fun f ⟨p, _, hp⟩ => ?_⟩
  have hlt : f.toNat < 6 := by
    induction p using List.reverseRecOn with
    | nil =>
      cases hp
      decide
    | append_singleton p i _ =>
      rw [follow_snoc, Option.bind_eq_some_iff] at hp
      obtain ⟨g, -, hg⟩ := hp
      obtain ⟨-, -, rfl⟩ | ⟨-, -, rfl⟩ | ⟨-, -, rfl⟩ | ⟨-, -, rfl⟩ := topGuarded_tree hg <;> decide
  exact ⟨hlt, List.not_mem_nil⟩

/-- Its only page is that of RODATA. -/
lemma topGuarded_valid (hv : Valid topGuarded a) : path a = path 0x140000000 := by
  obtain ⟨g, hg⟩ := isvalid_iff.mp hv
  have hlabel : pathTo g = path a := follow_label topGuarded_label hg
  have hlen := congrArg List.length hlabel
  rw [← hlabel]
  simp only [pathTo, path] at hlen ⊢
  split_ifs at hlen ⊢
  · cases hlen
  · cases hlen
  · cases hlen
  · decide

lemma topGuarded_sound : Sound bump topGuarded := by
  refine ⟨twoPages_layout, topGuarded_table, fun s hs a _ hin _ => ?_, fun s hs a ha hin hv => ?_⟩
  · rcases hs with rfl | rfl
    · exact hin.2.elim id id
    · exact hin.2.elim id id
  · have hpath := topGuarded_valid hv
    have hsame := samePage_of_path ha (Or.inl (by decide)) hpath
    have hrodata : s = .rodata := twoPages_layout.apart s .rodata a hin
      ((holds_of_samePage (twoPages_layout.start _) (twoPages_layout.limit _)
        (twoPages_layout.nextFree _) hsame).mpr (by rw [Holds]; decide))
    subst hrodata
    rw [hpath]
    refine ⟨fun hw => ?_, fun hw => absurd rfl hw⟩
    exact absurd hw.1 (by decide)

/-- The write bits of a page together are not invariant: an access to DATA makes the RODATA page
writable that only a shared upper entry protected. -/
theorem shared_entry_unguarded : ¬∀ (A : Allocator (ℕ × List Frame)), Lawful A →
    (∀ page, A.fill .osPt page = fun _ => 0) → ∀ k k' es rs, Sound A k →
      Along (Paging.exec A) Promised k es →
        Machine.run (Paging.exec A) k es = some (k', rs) → Sound A k' := by
  intro hclaim
  have hruns : (Machine.run (Paging.exec bump) topGuarded [.fault 0x180000000 0]).map (fun x =>
      (isvalid x.1.mem 0x140000000 x.1.ctx.pgd, decide (x.1.WriteAlong (path 0x140000000)),
        (x.1.ctx.mms .rodata).start, (x.1.ctx.mms .rodata).limit,
        (x.1.ctx.mms .rodata).accessFlags)) =
      some (1, true, 0x140000000, 0x140001000, 1) := by decide
  obtain ⟨⟨k', rs⟩, hrun, hfacts⟩ := Option.map_eq_some_iff.mp hruns
  simp only [Prod.mk.injEq, decide_eq_true_eq] at hfacts
  obtain ⟨hvalid, hwrite, hstart, hlimit, hflags⟩ := hfacts
  have hpromised : Along (Paging.exec bump) Promised topGuarded [.fault 0x180000000 0] :=
    ⟨⟨Or.inl (by decide), by rw [Valid]; decide⟩, fun _ _ _ => trivial⟩
  have hsound := hclaim bump bump_lawful (fun _ => rfl) topGuarded k' _ rs topGuarded_sound
    hpromised hrun
  have hin : Holds (k'.ctx.mms .rodata) 0x140000000 := by
    rw [Holds, hstart, hlimit]
    exact ⟨by decide, Or.inl (by decide)⟩
  have hmay := (hsound.guarded .rodata nofun 0x140000000 (Or.inl (by decide)) hin hvalid).mp hwrite
  rw [hflags] at hmay
  exact hmay (by decide)

end Runs

end OsAssignments.PagingInvariant
