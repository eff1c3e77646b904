import OsAssignments.PageTables

/-!
# What a fault and a release change

The fault handler deepens the tree one table at a time and then enters one page;
`free1` takes one page out. Other pages keep their frames, and write bits on the
way to them are only added.
-/
namespace OsAssignments.Paging

open RadixTree

variable {α : Type} {A : Allocator α} {k k' k'' : Kernel α} {p q : List Index} {i j : Index}
variable {frame table f g : Frame} {code : Word} {region : Region} {a' : α}

/-- Every entry on the way is writable. -/
def Kernel.WriteAlong (k : Kernel α) (q : List Index) : Prop :=
  AllAlong (fun f i => Writable (k.mem f i)) k.tree k.ctx.pgd q

instance (k : Kernel α) (q : List Index) : Decidable (k.WriteAlong q) :=
  inferInstanceAs (Decidable (AllAlong _ _ _ _))

lemma lookup_snoc (h : k.lookup p = some f) : k.lookup (p ++ [i]) = k.tree f i :=
  follow_snoc_of h

/-- Paths lead where they led, and write bits on them are only added. -/
structure Raised (k k' : Kernel α) : Prop where
  ctx : k'.ctx = k.ctx
  kept : ∀ q g, q.length ≤ 4 → k.lookup q = some g → k'.lookup q = some g
  marks : ∀ q g j, q.length < 4 → k.lookup q = some g → Present (k.mem g j) →
    Writable (k.mem g j) → Present (k'.mem g j) ∧ Writable (k'.mem g j)

namespace Raised

lemma trans (h : Raised k k') (h' : Raised k' k'') : Raised k k'' := by
  refine ⟨h'.ctx.trans h.ctx, fun q g hq hg => h'.kept q g hq (h.kept q g hq hg),
    fun q g j hq hg hpres hw => ?_⟩
  obtain ⟨hpres', hw'⟩ := h.marks q g j hq hg hpres hw
  exact h'.marks q g j hq (h.kept q g hq.le hg) hpres' hw'

/-- A path that was writable stays writable. -/
lemma writeAlong (h : Raised k k') (hq : q.length ≤ 4) (hg : k.lookup q = some g)
    (hw : k.WriteAlong q) : k'.WriteAlong q := by
  rw [Kernel.WriteAlong, h.ctx]
  refine hw.mono (fun p f hp hf => ?_) (fun p f i hp hf hwf => ?_) hg
  · have hkept := h.kept p f (hp.length_le.trans hq) hf
    rwa [Kernel.lookup, h.ctx] at hkept
  · have hlen := hp.length_le
    rw [List.length_append, List.length_singleton] at hlen
    obtain ⟨g', hg'⟩ := exists_follow_of_isPrefix hp hg
    have hpres : Present (k.mem f i) := by
      by_contra hnone
      rw [follow_snoc_of hf, tree_of_not_present hnone] at hg'
      cases hg'
    exact (h.marks p f i (by omega) hf hpres hwf).2

/-- One more writable entry behind a writable path. -/
lemma extend (h : Raised k k') (hp : p.length ≤ 4) (hf : k.lookup p = some f)
    (hw : k.WriteAlong p) (hentry : Writable (k'.mem f i)) : k'.WriteAlong (p ++ [i]) := by
  refine allAlong_snoc.mpr ⟨h.writeAlong hp hf hw, fun g hg => ?_⟩
  have hkept := h.kept p f hp hf
  rw [Kernel.lookup, hg, Option.some.injEq] at hkept
  rwa [hkept]

end Raised

/-- Tables are added and write bits are set; no page comes or goes. -/
structure Deepened (A : Allocator α) (k k' : Kernel α) : Prop extends Raised k k' where
  ok : TableOk A k'
  pages : ∀ q : List Index, q.length = 4 → k'.lookup q = k.lookup q
  leaves : ∀ q g, q.length = 3 → k.lookup q = some g → k'.mem g = k.mem g

lemma Deepened.trans (h : Deepened A k k') (h' : Deepened A k' k'') : Deepened A k k'' :=
  ⟨h.toRaised.trans h'.toRaised, h'.ok, fun q hq => (h'.pages q hq).trans (h.pages q hq),
    fun q g hq hg => (h'.leaves q g hq (h.kept q g (by omega) hg)).trans (h.leaves q g hq hg)⟩

section Give

variable (hA : Lawful A) (hk : TableOk A k) (halloc : A.alloc region k.frames = some (f, a'))
  (hp : k.lookup p = some frame) (hn : p.length < 4) (hcode : code.toNat < 4096)
  (hpres : Present code) (hempty : ¬Present (k.mem frame i))
  (hbare : p.length + 1 = 4 ∨ ∀ j, ¬Present (A.fill region (k.mem f) j))
include hA hk halloc hp hn hcode hpres hempty hbare

lemma give_raised : Raised k (k.give A region f a' code frame i) := by
  have hr := give_redirected hA hk halloc hp hn hcode hpres (hbare.imp id fun h => ⟨hempty, h⟩)
  have hnone : k.lookup (p ++ [i]) = none := by rw [lookup_snoc hp, tree_of_not_present hempty]
  refine ⟨rfl, fun q g hq hg => hr.kept hq hnone hg, fun q g j hq hg hpresent hw => ?_⟩
  rw [give_mem (lookup_ne_fresh hA hk halloc hq.le hg)]
  · exact ⟨hpresent, hw⟩
  · rintro ⟨rfl, rfl⟩
    exact hempty hpresent

end Give

section Descend

/-- The tables of the last level are not on the way down to them. -/
lemma lookup_ne_above (hk : TableOk A k) (hp : k.lookup p = some frame) (hn : p.length < 3)
    (hq : q.length = 3) (hg : k.lookup q = some g) : g ≠ frame := by
  rintro rfl
  have heq := hk.tree q p g (by omega) (by omega) hg hp
  rw [heq] at hq
  omega

lemma raise_deepened (hk : TableOk A k) (hp : k.lookup p = some frame) (hn : p.length < 3)
    (hcode : code.toNat < 4096) (hentry : Present (k.mem frame i)) :
    Deepened A k (k.store frame i (k.mem frame i ||| code)) := by
  refine ⟨⟨rfl, fun q g _ hg => (raise_lookup hcode hentry).trans hg,
    fun q g j _ _ hpresent hw => ?_⟩,
    raise_ok hk hcode hentry, fun q _ => raise_lookup hcode hentry, fun q g hq hg => ?_⟩
  · by_cases hgj : g = frame ∧ j = i
    · obtain ⟨rfl, rfl⟩ := hgj
      rw [store_mem_self]
      exact ⟨present_or.mpr (Or.inl hpresent), writable_or.mpr (Or.inl hw)⟩
    · rw [store_mem_ne hgj]
      exact ⟨hpresent, hw⟩
  · funext j
    exact store_mem_ne fun h => lookup_ne_above hk hp hn hq hg h.1

variable (hA : Lawful A) (hk : TableOk A k) (hp : k.lookup p = some frame) (hn : p.length < 3)
  (hcode : code.toNat < 4096) (hpres : Present code)
include hA hk hp hn hcode hpres

/-- One level of the fault handler's walk. -/
theorem descend_spec (hbare : ∀ f a', A.alloc .osPt k.frames = some (f, a') →
      ∀ j, ¬Present (A.fill .osPt (k.mem f) j))
    (h : descend A code i frame k = some (table, k')) :
    Deepened A k k' ∧ k'.lookup (p ++ [i]) = some table ∧
      (Writable code → Writable (k'.mem frame i)) := by
  by_cases hentry : Present (k.mem frame i)
  · rw [descend_present hentry, Option.some.injEq, Prod.mk.injEq] at h
    obtain ⟨rfl, rfl⟩ := h
    have hdeep := raise_deepened hk hp hn hcode hentry
    have hlook : k.lookup (p ++ [i]) = some (pfn (k.mem frame i)) := by
      rw [lookup_snoc hp, tree_of_present hentry]
    refine ⟨hdeep, hdeep.kept _ _ ?_ hlook, fun hw => ?_⟩
    · rw [List.length_append, List.length_singleton]
      omega
    · rw [store_mem_self]
      exact writable_or.mpr (Or.inr hw)
  · rw [descend_absent hA hk hp (by omega) hentry, Option.map_eq_some_iff] at h
    obtain ⟨⟨f, a'⟩, halloc, h⟩ := h
    rw [Prod.mk.injEq] at h
    obtain ⟨rfl, rfl⟩ := h
    have hbare' := hbare f a' halloc
    have hlen : (p ++ [i]).length < 4 := by
      rw [List.length_append, List.length_singleton]
      omega
    have hn' : p.length < 4 := by omega
    have hr := give_redirected hA hk halloc hp hn' hcode hpres (Or.inr ⟨hentry, hbare'⟩)
    refine ⟨⟨give_raised hA hk halloc hp hn' hcode hpres hentry (Or.inr hbare'),
      give_ok hA hk halloc hp hn' hcode hpres (Or.inr ⟨hentry, hbare'⟩),
        fun q hq => hr.other hq.le ?_,
      fun q g hq hg => ?_⟩, hr.self hlen.le, fun hw => ?_⟩
    · rintro rfl
      omega
    · funext j
      exact give_mem (lookup_ne_fresh hA hk halloc (by omega) hg)
        fun h => lookup_ne_above hk hp hn hq hg h.1
    · rw [give_mem_entry]
      exact (writable_entryFor hcode).mpr hw

end Descend

section Map

variable {rip : Word} {segment : MmSeg}

/-- The indices of the tables on the way to the last entry of an address. -/
def tables (address : Word) : List Index :=
  [shift address 39, shift address 30, shift address 21]

lemma path_eq (address : Word) : path address = tables address ++ [shift address 12] := rfl

/-- One page is entered, with an entry of its own, and the other pages stay. -/
structure Mapped (A : Allocator α) (k k' : Kernel α) (code : Word) (rip : Word) : Prop
    extends Raised k k' where
  ok : TableOk A k'
  others : ∀ q : List Index, q.length = 4 → q ≠ path rip → k'.lookup q = k.lookup q
  leaves : ∀ q g j, q.length = 3 → k.lookup q = some g → q ++ [j] ≠ path rip →
    k'.mem g j = k.mem g j
  entry : ∃ g page, k'.lookup (tables rip) = some g ∧ k'.lookup (path rip) = some page ∧
    (Writable (k'.mem g (shift rip 12)) ↔ Writable code)
  along : Writable code → k'.WriteAlong (path rip)

/-- The body of a branch of the fault handler, for a page that is not present. -/
theorem mapPage_spec (hA : Lawful A) (hzero : ∀ page j, ¬Present (A.fill .osPt page j))
    (hk : TableOk A k) (hnone : k.lookup (path rip) = none)
    (h : mapPage A segment rip k = some k') :
    Mapped A k k' (accessCode (k.ctx.mms segment).accessFlags) rip := by
  simp only [mapPage, Option.bind_eq_some_iff, Option.map_eq_some_iff, osPfnAlloc, Prod.exists] at h
  obtain ⟨f₁, k₁, h₁, f₂, k₂, h₂, f₃, k₃, h₃, page, k₄, ⟨f, a', halloc, hk₄⟩, rfl⟩ := h
  rw [Prod.mk.injEq] at hk₄
  obtain ⟨rfl, rfl⟩ := hk₄
  generalize hcode : accessCode (k.ctx.mms segment).accessFlags = code at *
  have hlt : code.toNat < 4096 := hcode ▸ accessCode_lt
  have hpres : Present code := hcode ▸ present_accessCode
  obtain ⟨hd₁, hl₁, hw₁⟩ := descend_spec (p := []) hA hk rfl (by norm_num) hlt hpres
    (fun _ _ _ => hzero _) h₁
  obtain ⟨hd₂, hl₂, hw₂⟩ := descend_spec hA hd₁.ok hl₁ (by simp) hlt hpres
    (fun _ _ _ => hzero _) h₂
  obtain ⟨hd₃, hl₃, hw₃⟩ := descend_spec hA hd₂.ok hl₂ (by simp) hlt hpres
    (fun _ _ _ => hzero _) h₃
  have hd : Deepened A k k₃ := (hd₁.trans hd₂).trans hd₃
  have hlook : k₃.lookup (tables rip) = some f₃ := hl₃
  have hempty : ¬Present (k₃.mem f₃ (shift rip 12)) := by
    rw [← tree_eq_none, ← lookup_snoc hlook, ← path_eq, hd.pages _ rfl, hnone]
  have hr := give_redirected (i := shift rip 12) hA hd.ok halloc hlook (by simp [tables]) hlt hpres
    (Or.inl rfl)
  have hraised := give_raised hA hd.ok halloc hlook (by simp [tables]) hlt hpres hempty
    (Or.inl rfl)
  have hentry : Writable ((k₃.give A .user f a' code f₃ (shift rip 12)).mem f₃ (shift rip 12)) ↔
      Writable code := by
    rw [give_mem_entry]
    exact writable_entryFor hlt
  change Mapped A k (k₃.give A .user f a' code f₃ (shift rip 12)) code rip
  refine ⟨hd.toRaised.trans hraised,
    give_ok hA hd.ok halloc hlook (by simp [tables]) hlt hpres (Or.inl rfl),
    fun q hq hne => (hr.other hq.le hne).trans (hd.pages q hq), fun q g j hq hg hne => ?_,
    ⟨f₃, f, hraised.kept _ _ (by simp [tables]) hlook, hr.self (by simp [tables]), ?_⟩,
    fun hw => ?_⟩
  · have hg' := hd.kept q g (by omega) hg
    rw [← hd.leaves q g hq hg]
    refine give_mem (lookup_ne_fresh hA hd.ok halloc (by omega) hg') ?_
    rintro ⟨rfl, rfl⟩
    rw [hd.ok.tree q (tables rip) g (by omega) (by simp [tables]) hg' hlook] at hne
    exact hne rfl
  · exact hentry
  · have ha₁ := hd₁.extend (p := []) (by norm_num) rfl trivial (hw₁ hw)
    have ha₂ := hd₂.extend (by simp) hl₁ ha₁ (hw₂ hw)
    have ha₃ := hd₃.extend (by simp) hl₂ ha₂ (hw₃ hw)
    exact hraised.extend (by simp) hl₃ ha₃ (hentry.mpr hw)

end Map

section Free

variable {address : Word}

lemma tree_eq : k.tree f i = if Present (k.mem f i) then some (pfn (k.mem f i)) else none := by
  split_ifs with h
  · exact tree_of_present h
  · exact tree_of_not_present h

/-- The code's own test of a page says whether the table leads to it. -/
theorem isvalid_iff : isvalid k.mem address k.ctx.pgd = 1 ↔
    ∃ g, k.lookup (path address) = some g := by
  simp only [isvalid, Kernel.lookup, path, follow, tree_eq]
  split_ifs <;> simp_all

/-- The pages behind `qs` are taken out, their frames given back in this order, and all else
stays. -/
structure Cleared (A : Allocator α) (k k' : Kernel α) (qs : List (List Index)) : Prop where
  ctx : k'.ctx = k.ctx
  full : ∀ q ∈ qs, q.length = 4
  frames : k'.frames =
    (qs.filterMap k.lookup).foldl (fun frames f => A.free .user f frames) k.frames
  gone : ∀ q ∈ qs, k'.lookup q = none
  others : ∀ q : List Index, q.length ≤ 4 → q ∉ qs → k'.lookup q = k.lookup q
  words : ∀ q g j, q.length < 4 → k.lookup q = some g → q ++ [j] ∉ qs → k'.mem g j = k.mem g j

namespace Cleared

variable {qs qs' : List (List Index)}

lemma kept (h : Cleared A k k' qs) (hq : q.length ≤ 4) (hg : k'.lookup q = some g) :
    k.lookup q = some g := by
  rw [← h.others q hq, hg]
  intro hmem
  rw [h.gone q hmem] at hg
  cases hg

lemma isTree (h : Cleared A k k' qs) (htree : IsTree k.tree k.ctx.pgd 4) :
    IsTree k'.tree k'.ctx.pgd 4 := fun p q f hp hq hf hf' =>
  htree p q f hp hq (h.kept hp hf) (h.kept hq hf')

lemma append (h : Cleared A k k' qs) (h' : Cleared A k' k'' qs') (hdisj : qs.Disjoint qs') :
    Cleared A k k'' (qs ++ qs') := by
  have hmap : qs'.filterMap k'.lookup = qs'.filterMap k.lookup := List.filterMap_congr fun q hq =>
    h.others q (h'.full q hq).le fun hmem => hdisj hmem hq
  refine ⟨h'.ctx.trans h.ctx, fun q hq => ?_, ?_, fun q hq => ?_, fun q hq hne => ?_,
    fun q g j hq hg hne => ?_⟩
  · exact (List.mem_append.mp hq).elim (h.full q) (h'.full q)
  · rw [h'.frames, h.frames, hmap, List.filterMap_append, List.foldl_append]
  · by_cases hmem : q ∈ qs'
    · exact h'.gone q hmem
    · have hold := (List.mem_append.mp hq).resolve_right hmem
      rw [h'.others q (h.full q hold).le hmem, h.gone q hold]
  · rw [List.mem_append, not_or] at hne
    rw [h'.others q hq hne.2, h.others q hq hne.1]
  · rw [List.mem_append, not_or] at hne
    have hshort : q ∉ qs := fun hmem => absurd (h.full q hmem) hq.ne
    rw [h'.words q g j hq ((h.others q hq.le hshort).trans hg) hne.2, h.words q g j hq hg hne.1]

end Cleared

lemma free1_absent (h : k.lookup (path address) = none) : free1 A address k.ctx.pgd k = k := by
  simp only [Kernel.lookup, path, follow, tree_eq] at h
  simp only [free1]
  split_ifs at h ⊢ <;> simp_all

lemma free1_present (h : k.lookup (tables address) = some g)
    (hpres : Present (k.mem g (shift address 12))) : free1 A address k.ctx.pgd k =
      (osPfnFree A .user (pfn (k.mem g (shift address 12))) k).store g (shift address 12) 0 := by
  simp only [Kernel.lookup, tables, follow, tree_eq] at h
  simp only [free1]
  split_ifs at h ⊢ <;> simp_all

/-- `free1` takes one page out, if it is there. -/
theorem free1_cleared (address : Word) (htree : IsTree k.tree k.ctx.pgd 4) :
    Cleared A k (free1 A address k.ctx.pgd k) [path address] := by
  have hfull : ∀ q ∈ [path address], q.length = 4 := by simp [path]
  cases hpage : k.lookup (path address) with
  | none =>
    rw [free1_absent hpage]
    refine ⟨rfl, hfull, ?_, ?_, fun _ _ _ => rfl, fun _ _ _ _ _ _ => rfl⟩
    · simp [hpage]
    · simp [hpage]
  | some page =>
    obtain ⟨g, hg⟩ : ∃ g, k.lookup (tables address) = some g :=
      exists_follow_of_isPrefix (List.prefix_append _ [shift address 12]) hpage
    have hnext : k.tree g (shift address 12) = some page := by
      rw [← hpage, path_eq, lookup_snoc hg]
    have hpres : Present (k.mem g (shift address 12)) := by
      by_contra hnone
      rw [tree_of_not_present hnone] at hnext
      cases hnext
    rw [tree_of_present hpres, Option.some.injEq] at hnext
    rw [free1_present hg hpres, hnext]
    have honly : OnlyEntry k.tree ((osPfnFree A .user page k).store g (shift address 12) 0).tree
        k.ctx.pgd 4 g (shift address 12) := fun q g' j hq hg' hne => tree_congr (store_mem_ne hne)
    have hnone : ((osPfnFree A .user page k).store g (shift address 12) 0).tree g
        (shift address 12) = none := by
      rw [tree_eq_none, store_mem_self]
      exact not_present_zero
    have hr := honly.redirected htree hg (by simp [tables]) (Or.inl rfl)
    rw [hnone, ← path_eq] at hr
    refine ⟨rfl, hfull, ?_, fun q hq => ?_, fun q hq hne => hr.other hq (by simpa using hne),
      fun q g' j hq hg' hne => ?_⟩
    · simp [hpage, Kernel.store, osPfnFree]
    · rw [List.mem_singleton] at hq
      rw [hq]
      exact hr.self (by simp [path])
    · apply store_mem_ne
      rintro ⟨rfl, rfl⟩
      rw [htree q (tables address) g' hq.le (by simp [tables]) hg' hg] at hne
      exact hne (List.mem_singleton.mpr rfl)

/-- One page is taken out, its frame given back, and all else stays. -/
structure Released (A : Allocator α) (k k' : Kernel α) (address : Word) : Prop where
  ctx : k'.ctx = k.ctx
  ok : TableOk A k'
  gone : k'.lookup (path address) = none
  others : ∀ q, q.length ≤ 4 → q ≠ path address → k'.lookup q = k.lookup q
  words : ∀ q g j, q.length < 4 → k.lookup q = some g → q ++ [j] ≠ path address →
    k'.mem g j = k.mem g j

theorem free1_spec (address : Word) (hA : Lawful A) (hk : TableOk A k) :
    Released A k (free1 A address k.ctx.pgd k) address := by
  have h := free1_cleared (A := A) address hk.tree
  have hself := h.gone (path address) (List.mem_singleton.mpr rfl)
  refine ⟨h.ctx, ⟨h.isTree hk.tree, fun g ⟨q, hq, hg⟩ => ?_⟩, hself,
    fun q hq hne => h.others q hq (by simpa using hne),
    fun q g j hq hg hne => h.words q g j hq hg (by simpa using hne)⟩
  have hold : k.lookup q = some g := h.kept hq hg
  have halloc : A.allocated k.frames g := hk.allocated g ⟨q, hq, hold⟩
  rw [h.frames]
  cases hpage : k.lookup (path address) with
  | none => simpa [hpage] using halloc
  | some page =>
    simp only [List.filterMap_cons, hpage, List.filterMap_nil, List.foldl_cons, List.foldl_nil]
    refine (hA.unmark (hk.allocated page ⟨_, by simp [path], hpage⟩) g).mpr ⟨halloc, ?_⟩
    rintro rfl
    -- the page could only be reached along the path that is gone
    rw [hk.tree q (path address) g hq (by simp [path]) hold hpage] at hg
    rw [Kernel.lookup] at hself
    rw [hself] at hg
    cases hg

lemma freePages_succ {curr : Word} {pgd : Frame} {n : ℕ} : freePages A curr pgd (n + 1) k =
    free1 A (curr - 4096 * (BitVec.ofNat 64 n + 1)) pgd (freePages A curr pgd n k) := by
  rw [freePages, List.range_succ, List.foldl_append]
  rfl

end Free

section UserStores

variable {need address : Word} {byte : BitVec 8} {page : Frame}

lemma lookup_of_links (hneed : need &&& 1 = 1)
    (h : follow (links need k.mem) k.ctx.pgd q = some g) : k.lookup q = some g := by
  refine follow_mono (fun f i g hlink => ?_) h
  by_cases hpres : Present (k.mem f i)
  · unfold links at hlink
    split_ifs at hlink
    exact (tree_of_present hpres).trans hlink
  · rw [links_of_not_present hneed hpres] at hlink
    cases hlink

/-- An access in user mode finds a page that is present. -/
lemma lookup_of_translate (hneed : need &&& 1 = 1)
    (h : translate need k.mem k.ctx.pgd address = some page) :
    k.lookup (path address) = some page :=
  lookup_of_links hneed h

/-- A page is no table. -/
lemma lookup_ne_page (hk : TableOk A k) (hpage : k.lookup (path address) = some page)
    (hq : q.length < 4) (hg : k.lookup q = some g) : g ≠ page := by
  rintro rfl
  rw [hk.tree q (path address) g hq.le (by simp [path]) hg hpage] at hq
  simp [path] at hq

/-- A store in user mode changes one page and no table. -/
theorem userStore_spec (address : Word) (byte : BitVec 8) (hk : TableOk A k) :
    (userStore address byte k).ctx = k.ctx ∧
      (userStore address byte k).frames = k.frames ∧
      ∀ q g, q.length < 4 → k.lookup q = some g → (userStore address byte k).mem g = k.mem g := by
  unfold userStore
  cases htr : translate 7 k.mem k.ctx.pgd address with
  | none => exact ⟨rfl, rfl, fun _ _ _ _ => rfl⟩
  | some page =>
    refine ⟨rfl, rfl, fun q g hq hg => ?_⟩
    have hne := lookup_ne_page hk (lookup_of_translate (by decide) htr) hq hg
    exact funext fun j => store_mem_ne fun h => hne h.1

/-- Tables that keep their words keep all paths. -/
lemma lookup_congr (hctx : k'.ctx = k.ctx)
    (hmem : ∀ q g, q.length < 4 → k.lookup q = some g → k'.mem g = k.mem g)
    (hq : q.length ≤ 4) : k'.lookup q = k.lookup q := by
  rw [Kernel.lookup, hctx]
  exact follow_congr (fun p f hp hf => funext fun i => tree_congr (by rw [hmem p f hp hf])) hq

lemma TableOk.congr (hk : TableOk A k) (hctx : k'.ctx = k.ctx) (hframes : k'.frames = k.frames)
    (hmem : ∀ q g, q.length < 4 → k.lookup q = some g → k'.mem g = k.mem g) : TableOk A k' := by
  refine ⟨fun p q f hp hq hf hf' => ?_, fun f ⟨p, hp, hf⟩ => ?_⟩
  · have hp' := lookup_congr hctx hmem hp
    have hq' := lookup_congr hctx hmem hq
    exact hk.tree p q f hp hq (hp'.symm.trans hf) (hq'.symm.trans hf')
  · rw [hframes]
    exact hk.allocated f ⟨p, hp, (lookup_congr hctx hmem hp).symm.trans hf⟩

end UserStores

end OsAssignments.Paging
