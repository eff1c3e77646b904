import OsAssignments.PagingInvariant

/-!
# One page for one fault

What a fault takes from the allocator and what it leaves of the table. The tables
that are missing on the way are taken from the top down and the page last; the
entries that were there keep all their bits.
-/
namespace OsAssignments.PageFaults

open Paging RadixTree PagingInvariant

variable {α : Type} {A : Allocator α} {k k' k'' : Kernel α} {p q : List Index} {i j : Index}
variable {frame table f g page : Frame} {code w rip errorCode : Word} {s : MmSeg}
variable {rs : List Region} {fs : List Frame} {a a' : α}

section Handler

/-- The segment whose branch of `handle_page_fault` takes a fault, if one does. -/
def accepting (ctx : ExecContext) (rip errorCode : Word) : Option MmSeg :=
  if (ctx.mms .data).start ≤ rip ∧ rip < (ctx.mms .data).nextFree ∧ errorCode &&& 1 = 0 then
    some .data
  else if (ctx.mms .rodata).start ≤ rip ∧ rip < (ctx.mms .rodata).nextFree ∧
      errorCode &&& 2 = 0 ∧ errorCode &&& 1 = 0 then
    some .rodata
  else if (ctx.mms .stack).start ≤ rip ∧ rip < (ctx.mms .stack).limit ∧ errorCode &&& 1 = 0 then
    some .stack
  else none

/-- How the handler ends: back in the process, or in `do_exit`. -/
inductive Ending (α : Type)
  | iretq (k : Kernel α)
  | doExit (k : Kernel α)

/-- The kernel the process goes on with. -/
def Ending.returned : Ending α → Option (Kernel α)
  | .iretq k => some k
  | .doExit _ => none

/-- `handle_page_fault` with both its ends; without a result the allocator had no frame. -/
def pageFault (A : Allocator α) (rip errorCode : Word) (k : Kernel α) : Option (Ending α) :=
  match accepting k.ctx rip errorCode with
  | some s => (mapPage A s rip k).map .iretq
  | none => some (.doExit k)

theorem handlePageFault_eq :
    handlePageFault A rip errorCode k = (pageFault A rip errorCode k).bind Ending.returned := by
  have hret : ∀ s, mapPage A s rip k = ((mapPage A s rip k).map .iretq).bind Ending.returned := by
    intro s
    cases mapPage A s rip k <;> rfl
  simp only [handlePageFault, pageFault, accepting]
  split_ifs
  · exact hret .data
  · exact hret .rodata
  · exact hret .stack
  · rfl

end Handler

section Supply

/-- Frames handed out one after the other. -/
def supply (A : Allocator α) : List Region → α → Option (List Frame × α)
  | [], a => some ([], a)
  | r :: rs, a => (A.alloc r a).bind fun (f, a) => (supply A rs a).map fun (fs, a) => (f :: fs, a)

lemma supply_cons {r : Region} (h : supply A (r :: rs) a = some (fs, a')) :
    ∃ f a₁ fs', A.alloc r a = some (f, a₁) ∧ supply A rs a₁ = some (fs', a') ∧ fs = f :: fs' := by
  simp only [supply, Option.bind_eq_some_iff, Option.map_eq_some_iff, Prod.exists,
    Prod.mk.injEq] at h
  obtain ⟨f, a₁, halloc, fs', a₂, hrest, hfs, rfl⟩ := h
  exact ⟨f, a₁, fs', halloc, hrest, hfs.symm⟩

/-- Frames handed out one after the other are distinct, and none was in use. -/
theorem supply_fresh (hA : Lawful A) (h : supply A rs a = some (fs, a')) :
    fs.Nodup ∧ ∀ f ∈ fs, ¬A.allocated a f := by
  induction rs generalizing a fs with
  | nil =>
    simp only [supply, Option.some.injEq, Prod.mk.injEq] at h
    obtain ⟨rfl, -⟩ := h
    simp
  | cons r rs ih =>
    obtain ⟨f, a₁, fs', halloc, hrest, rfl⟩ := supply_cons h
    obtain ⟨hnodup, hfresh⟩ := ih hrest
    have hlater : ∀ g ∈ fs', g ≠ f ∧ ¬A.allocated a g := by
      intro g hg
      have hnot := hfresh g hg
      rw [hA.mark halloc g, not_or] at hnot
      exact hnot
    refine ⟨List.nodup_cons.mpr ⟨fun hmem => (hlater f hmem).1 rfl, hnodup⟩, fun g hg => ?_⟩
    cases hg with
    | head => exact hA.fresh halloc
    | tail _ hg => exact (hlater g hg).2

/-- The tables on the way to an address that are not there, from the top down. -/
def missing (k : Kernel α) (rip : Word) : List (List Index) :=
  [[shift rip 39], [shift rip 39, shift rip 30], tables rip].filter fun p => (k.lookup p).isNone

/-- The frames a fault needs: one for each missing table, then the page. -/
def needs (k : Kernel α) (rip : Word) : List Region :=
  (missing k rip).map (fun _ => .osPt) ++ [.user]

/-- A frame for the table at `p` unless it is there, and then others. -/
def tableThen (k : Kernel α) (p : List Index) (rs : List Region) : List Region :=
  if (k.lookup p).isNone then .osPt :: rs else rs

lemma needs_eq : needs k rip = tableThen k [shift rip 39]
    (tableThen k [shift rip 39, shift rip 30] (tableThen k (tables rip) [.user])) := by
  simp only [needs, missing, tableThen, List.filter_cons, List.filter_nil]
  split_ifs <;> rfl

end Supply

section Bits

/-- Present and open to the user. -/
def Open (w : Word) : Prop := w &&& 5 = 5

lemma open_accessCode {flags : BitVec 32} : Open (accessCode flags) := by
  unfold Open
  rcases accessCode_cases flags with ⟨-, h⟩ | ⟨-, h⟩ <;> rw [h] <;> decide

lemma open_or (h : Open code) : Open (w ||| code) := by
  unfold Open at h ⊢
  rw [BitVec.and_or_distrib_right, h]
  ext n
  simp

lemma open_congr {v : Word} (h : v.toNat % 8 = w.toNat % 8) : Open v ↔ Open w := by
  have hmask : ∀ u : Word, u &&& 5 = BitVec.ofNat 64 (u.toNat % 8) &&& 5 := by
    intro u
    have hlow : BitVec.ofNat 64 (u.toNat % 8) = u &&& 7 := by
      rw [← BitVec.toNat_inj, BitVec.toNat_and, BitVec.toNat_ofNat]
      have hseven : (7 : Word).toNat = 2 ^ 3 - 1 := rfl
      rw [hseven, Nat.and_two_pow_sub_one_eq_mod]
      omega
    have hfive : (7 : Word) &&& 5 = 5 := by decide
    rw [hlow, BitVec.and_assoc, hfive]
  rw [Open, Open, hmask v, hmask w, h]

lemma open_entryFor (hcode : code.toNat < 4096) (h : Open code) : Open (entryFor code frame) := by
  refine (open_congr ?_).mpr h
  rw [entryFor_toNat hcode]
  omega

lemma and_or_self : w &&& (w ||| code) = w := by
  ext n
  cases hbit : w[n] <;> simp [hbit]

/-- Bits that are kept keep a mask. -/
lemma mask_kept {v c : Word} (h : w &&& c = c) (hv : w &&& v = w) : v &&& c = c :=
  calc v &&& c = v &&& (w &&& c) := by rw [h]
    _ = (w &&& v) &&& c := by ac_rfl
    _ = c := by rw [hv, h]

lemma Open.present (h : Open w) : Present w := by
  refine present_iff.mpr ?_
  have hone : (1 : Word) = 5 &&& 1 := by decide
  unfold Open at h
  rw [hone, ← BitVec.and_assoc, h]

end Bits

section Walk

/-- Paths lead where they led, and entries on them lose no bit. -/
structure Strengthened (k k' : Kernel α) : Prop where
  ctx : k'.ctx = k.ctx
  kept : ∀ q g, q.length ≤ 4 → k.lookup q = some g → k'.lookup q = some g
  bits : ∀ q g j, q.length < 4 → k.lookup q = some g → Present (k.mem g j) →
    k.mem g j &&& k'.mem g j = k.mem g j

/-- Every entry on the way is present and open to the user. -/
def OpenAlong (k : Kernel α) (q : List Index) : Prop :=
  AllAlong (fun f i => Open (k.mem f i)) k.tree k.ctx.pgd q

namespace Strengthened

lemma trans (h : Strengthened k k') (h' : Strengthened k' k'') : Strengthened k k'' := by
  refine ⟨h'.ctx.trans h.ctx, fun q g hq hg => h'.kept q g hq (h.kept q g hq hg),
    fun q g j hq hg hpres => ?_⟩
  have hbits := h.bits q g j hq hg hpres
  have hpres' : Present (k'.mem g j) := present_iff.mpr (mask_kept (present_iff.mp hpres) hbits)
  have hbits' := h'.bits q g j hq (h.kept q g hq.le hg) hpres'
  calc k.mem g j &&& k''.mem g j
      = (k.mem g j &&& k'.mem g j) &&& k''.mem g j := by rw [hbits]
    _ = k.mem g j &&& (k'.mem g j &&& k''.mem g j) := BitVec.and_assoc _ _ _
    _ = k.mem g j := by rw [hbits', hbits]

lemma openAlong (h : Strengthened k k') (hq : q.length ≤ 4) (hg : k.lookup q = some g)
    (ho : OpenAlong k q) : OpenAlong k' q := by
  rw [OpenAlong, h.ctx]
  refine ho.mono (fun p f hp hf => ?_) (fun p f i hp hf hopen => ?_) hg
  · have hkept := h.kept p f (hp.length_le.trans hq) hf
    rwa [Kernel.lookup, h.ctx] at hkept
  · have hlt := prefix_length_lt hp
    exact mask_kept hopen (h.bits p f i (by omega) hf hopen.present)

/-- One more open entry behind an open path. -/
lemma extend (h : Strengthened k k') (hp : p.length ≤ 4) (hf : k.lookup p = some f)
    (ho : OpenAlong k p) (hentry : Open (k'.mem f i)) : OpenAlong k' (p ++ [i]) := by
  refine allAlong_snoc.mpr ⟨h.openAlong hp hf ho, fun g hg => ?_⟩
  have hkept := h.kept p f hp hf
  rw [Kernel.lookup, hg, Option.some.injEq] at hkept
  rwa [hkept]

end Strengthened

/-- The hardware finds a page in user mode when the way to it is open. -/
theorem translate_of_openAlong (ho : OpenAlong k (path rip))
    (h : k.lookup (path rip) = some page) :
    Paging.translate 5 k.mem k.ctx.pgd rip = some page := by
  unfold OpenAlong at ho
  unfold Kernel.lookup at h
  unfold Paging.translate
  generalize path rip = q at ho h
  generalize k.ctx.pgd = r at ho h
  induction q generalizing r with
  | nil => exact h
  | cons i q ih =>
    obtain ⟨hentry, hrest⟩ := ho
    have hnext := tree_of_present hentry.present
    have hlink : links 5 k.mem r i = some (pfn (k.mem r i)) := if_pos hentry
    rw [follow, hnext, Option.bind_some] at h
    rw [follow, hlink, Option.bind_some]
    exact ih _ (hrest _ hnext) h

end Walk

section Levels

/-- One table or page on the way is there afterwards, and all else is where it was. -/
structure Descended (A : Allocator α) (k k' : Kernel α) (p : List Index) (table : Frame) : Prop
    extends Strengthened k k' where
  ok : TableOk A k'
  self : k'.lookup p = some table
  others : ∀ q : List Index, q.length ≤ 4 → q ≠ p → k'.lookup q = k.lookup q

/-- The other tables are missing afterwards exactly when they were missing before. -/
lemma Descended.tableThen_eq (hd : Descended A k k' p table) (hq : q.length ≤ 4) (hne : q ≠ p) :
    tableThen k q rs = tableThen k' q rs := by
  rw [tableThen, tableThen, hd.others q hq hne]

lemma raise_descended (hk : TableOk A k) (hp : k.lookup p = some frame) (hcode : code.toNat < 4096)
    (hentry : Present (k.mem frame i)) :
    Descended A k (k.store frame i (k.mem frame i ||| code)) (p ++ [i]) (pfn (k.mem frame i)) := by
  refine ⟨⟨rfl, fun q g _ hg => (raise_lookup hcode hentry).trans hg, fun q g j _ _ _ => ?_⟩,
    raise_ok hk hcode hentry, ?_, fun q _ _ => raise_lookup hcode hentry⟩
  · by_cases hgj : g = frame ∧ j = i
    · obtain ⟨rfl, rfl⟩ := hgj
      rw [store_mem_self]
      exact and_or_self
    · rw [store_mem_ne hgj, BitVec.and_self]
  · rw [raise_lookup hcode hentry, lookup_snoc hp, tree_of_present hentry]

section Give

variable {region : Region} (hA : Lawful A) (hk : TableOk A k)
  (halloc : A.alloc region k.frames = some (f, a')) (hp : k.lookup p = some frame)
  (hn : p.length < 4) (hcode : code.toNat < 4096) (hpres : Present code)
  (hempty : ¬Present (k.mem frame i))
  (hbare : p.length + 1 = 4 ∨ ∀ j, ¬Present (A.fill region (k.mem f) j))
include hA hk halloc hp hn hcode hpres hempty hbare

lemma give_descended : Descended A k (k.give A region f a' code frame i) (p ++ [i]) f := by
  have hlast := hbare.imp id fun h => And.intro hempty h
  have hr := give_redirected hA hk halloc hp hn hcode hpres hlast
  have hnone : k.lookup (p ++ [i]) = none := by rw [lookup_snoc hp, tree_of_not_present hempty]
  have hlen : (p ++ [i]).length ≤ 4 := by
    rw [List.length_append, List.length_singleton]
    omega
  refine ⟨⟨rfl, fun q g hq hg => hr.kept hq hnone hg, fun q g j hq hg hpresent => ?_⟩,
    give_ok hA hk halloc hp hn hcode hpres hlast, hr.self hlen, fun q hq hne => hr.other hq hne⟩
  rw [give_mem (lookup_ne_fresh hA hk halloc hq.le hg), BitVec.and_self]
  rintro ⟨rfl, rfl⟩
  exact hempty hpresent

end Give

/-- One level of the walk: the table is there, or the next frame handed out becomes it. -/
theorem descend_supplied (hA : Lawful A) (hzero : ∀ page j, ¬Present (A.fill .osPt page j))
    (hk : TableOk A k) (hp : k.lookup p = some frame) (hn : p.length < 3)
    (hcode : code.toNat < 4096) (hopen : Open code) (hq : p ++ [i] = q)
    (h : supply A (tableThen k q rs) k.frames = some (fs, a')) :
    ∃ table k' fs', descend A code i frame k = some (table, k') ∧ Descended A k k' q table ∧
      Open (k'.mem frame i) ∧ supply A rs k'.frames = some (fs', a') ∧
      fs = if (k.lookup q).isNone then table :: fs' else fs' := by
  subst hq
  have hlook := lookup_snoc (i := i) hp
  by_cases hentry : Present (k.mem frame i)
  · rw [tree_of_present hentry] at hlook
    simp only [tableThen, hlook, Option.isNone_some, Bool.false_eq_true, if_false] at h ⊢
    refine ⟨_, _, fs, descend_present hentry, raise_descended hk hp hcode hentry, ?_, h, rfl⟩
    rw [store_mem_self]
    exact open_or hopen
  · rw [tree_of_not_present hentry] at hlook
    simp only [tableThen, hlook, Option.isNone_none, if_true] at h ⊢
    obtain ⟨f, a₁, fs', halloc, hrest, rfl⟩ := supply_cons h
    refine ⟨f, k.give A .osPt f a₁ code frame i, fs', ?_,
      give_descended hA hk halloc hp (by omega) hcode hopen.present hentry
        (Or.inr (hzero (k.mem f))), ?_, hrest, rfl⟩
    · rw [descend_absent hA hk hp (by omega) hentry, halloc, Option.map_some]
    · rw [give_mem_entry]
      exact open_entryFor hcode hopen

end Levels

section Fault

/-- What a fault changes when it enters `page` with the frames `fs`. -/
structure OnePage (A : Allocator α) (k k' : Kernel α) (rip : Word) (page : Frame)
    (fs : List Frame) : Prop extends Strengthened k k' where
  ok : TableOk A k'
  found : Paging.translate 5 k'.mem k'.ctx.pgd rip = some page
  others : ∀ q : List Index, q.length = 4 → q ≠ path rip → k'.lookup q = k.lookup q
  frames : fs = (missing k rip).filterMap k'.lookup ++ [page]

/-- What the walk to the last table changes when it uses the frames `fs`. -/
structure TablesDone (A : Allocator α) (k k' : Kernel α) (rip : Word) (table : Frame)
    (fs : List Frame) : Prop extends Strengthened k k' where
  ok : TableOk A k'
  self : k'.lookup (tables rip) = some table
  along : OpenAlong k' (tables rip)
  pages : ∀ q : List Index, q.length = 4 → k'.lookup q = k.lookup q
  frames : fs = (missing k rip).filterMap k'.lookup

variable (hA : Lawful A) (hzero : ∀ page j, ¬Present (A.fill .osPt page j)) (hk : TableOk A k)
include hA hzero hk

/-- The three levels of tables. -/
theorem tables_supplied (hcode : code.toNat < 4096) (hopen : Open code)
    (h : supply A (needs k rip) k.frames = some (fs, a')) :
    ∃ t₁ k₁ t₂ k₂ t₃ k₃ gs fs', descend A code (shift rip 39) k.ctx.pgd k = some (t₁, k₁) ∧
      descend A code (shift rip 30) t₁ k₁ = some (t₂, k₂) ∧
      descend A code (shift rip 21) t₂ k₂ = some (t₃, k₃) ∧ TablesDone A k k₃ rip t₃ gs ∧
      supply A [.user] k₃.frames = some (fs', a') ∧ fs = gs ++ fs' := by
  rw [needs_eq] at h
  obtain ⟨t₁, k₁, fs₁, hw₁, hd₁, ho₁, h₁, hfs⟩ := descend_supplied (p := [])
    (q := [shift rip 39]) hA hzero hk rfl (by norm_num) hcode hopen rfl h
  rw [hd₁.tableThen_eq (q := [shift rip 39, shift rip 30]) (by simp) (by simp),
    hd₁.tableThen_eq (q := tables rip) (by simp [tables]) (by simp [tables])] at h₁
  obtain ⟨t₂, k₂, fs₂, hw₂, hd₂, ho₂, h₂, hfs₁⟩ := descend_supplied
    (q := [shift rip 39, shift rip 30]) hA hzero hd₁.ok hd₁.self (by simp) hcode hopen rfl h₁
  rw [hd₂.tableThen_eq (q := tables rip) (by simp [tables]) (by simp [tables])] at h₂
  obtain ⟨t₃, k₃, fs₃, hw₃, hd₃, ho₃, h₃, hfs₂⟩ := descend_supplied (q := tables rip) hA hzero
    hd₂.ok hd₂.self (by simp) hcode hopen rfl h₂
  have hs := (hd₁.toStrengthened.trans hd₂.toStrengthened).trans hd₃.toStrengthened
  have ha₁ : OpenAlong k₁ [shift rip 39] := hd₁.extend (p := []) (by norm_num) rfl trivial ho₁
  have ha₂ : OpenAlong k₂ [shift rip 39, shift rip 30] := hd₂.extend (by simp) hd₁.self ha₁ ho₂
  have ha₃ : OpenAlong k₃ (tables rip) := hd₃.extend (by simp) hd₂.self ha₂ ho₃
  have hl₂ : k₃.lookup [shift rip 39, shift rip 30] = some t₂ := hd₃.kept _ _ (by simp) hd₂.self
  have hl₁ : k₃.lookup [shift rip 39] = some t₁ :=
    hd₃.kept _ _ (by simp) (hd₂.kept _ _ (by simp) hd₁.self)
  refine ⟨t₁, k₁, t₂, k₂, t₃, k₃, _, fs₃, hw₁, hw₂, hw₃,
    ⟨hs, hd₃.ok, hd₃.self, ha₃, fun q hq => ?_, rfl⟩, h₃, ?_⟩
  · have hne : ∀ p : List Index, p.length < 4 → q ≠ p := by
      rintro p hp rfl
      omega
    rw [hd₃.others q hq.le (hne _ (by simp [tables])), hd₂.others q hq.le (hne _ (by simp)),
      hd₁.others q hq.le (hne _ (by simp))]
  · have hm₂ : k₁.lookup [shift rip 39, shift rip 30] = k.lookup [shift rip 39, shift rip 30] :=
      hd₁.others _ (by simp) (by simp)
    have hm₃ : k₂.lookup (tables rip) = k.lookup (tables rip) := by
      rw [hd₂.others _ (by simp [tables]) (by simp [tables]),
        hd₁.others _ (by simp [tables]) (by simp [tables])]
    rw [hfs, hfs₁, hfs₂, hm₂, hm₃]
    simp only [missing, List.filter_cons, List.filter_nil]
    split_ifs <;> simp [hl₁, hl₂, hd₃.self]

/-- The body of a branch of the fault handler, for a page that is not there. -/
theorem mapPage_supplied (hnone : k.lookup (path rip) = none)
    (h : supply A (needs k rip) k.frames = some (fs, a')) :
    ∃ k' page, mapPage A s rip k = some k' ∧ k'.frames = a' ∧ OnePage A k k' rip page fs := by
  generalize hcode : accessCode (k.ctx.mms s).accessFlags = code
  have hlt : code.toNat < 4096 := hcode ▸ accessCode_lt
  have hopen : Open code := hcode ▸ open_accessCode
  obtain ⟨t₁, k₁, t₂, k₂, t₃, k₃, gs, fs', hw₁, hw₂, hw₃, hd, h₃, rfl⟩ :=
    tables_supplied hA hzero hk hlt hopen h
  obtain ⟨page, a₁, fs'', halloc, hrest, rfl⟩ := supply_cons h₃
  simp only [supply, Option.some.injEq, Prod.mk.injEq] at hrest
  obtain ⟨rfl, rfl⟩ := hrest
  have hempty : ¬Present (k₃.mem t₃ (shift rip 12)) := by
    rw [← tree_eq_none, ← lookup_snoc hd.self, ← path_eq, hd.pages _ rfl, hnone]
  have hpage := give_descended hA hd.ok halloc hd.self (by simp [tables]) hlt hopen.present hempty
    (Or.inl rfl)
  rw [← path_eq] at hpage
  refine ⟨k₃.give A .user page a₁ code t₃ (shift rip 12), page, ?_, rfl,
    hd.toStrengthened.trans hpage.toStrengthened, hpage.ok, ?_, fun q hq hne => ?_, ?_⟩
  · simp only [mapPage, hcode, hw₁, hw₂, hw₃, Option.bind_some, osPfnAlloc, halloc,
      Option.map_some, Kernel.give]
  · apply translate_of_openAlong _ hpage.self
    apply hpage.extend (by simp [tables]) hd.self hd.along
    rw [give_mem_entry]
    exact open_entryFor hlt hopen
  · rw [hpage.others q hq.le hne, hd.pages q hq]
  · rw [hd.frames]
    congr 1
    apply List.filterMap_congr
    intro q hq
    have hlen : q.length < 4 := by
      simp only [missing, List.mem_filter, List.mem_cons, List.not_mem_nil, or_false] at hq
      obtain ⟨rfl | rfl | rfl, -⟩ := hq <;> simp [tables]
    refine (hpage.others q hlen.le ?_).symm
    rintro rfl
    simp [path] at hlen

end Fault

/-- A fault that a branch takes enters one page, whichever of the tables on the way exist; any
other fault ends in `do_exit` with the table as it was. -/
theorem fault_maps_one_page (A : Allocator α) (hA : Lawful A)
    (hzero : ∀ page, A.fill .osPt page = fun _ => 0) (k : Kernel α) (hk : TableOk A k)
    (rip errorCode : Word) :
    (accepting k.ctx rip errorCode = none → pageFault A rip errorCode k = some (.doExit k)) ∧
    ∀ s frames a', accepting k.ctx rip errorCode = some s → k.lookup (path rip) = none →
      supply A (needs k rip) k.frames = some (frames, a') →
      ∃ k' page, pageFault A rip errorCode k = some (.iretq k') ∧ k'.ctx = k.ctx ∧
        k'.frames = a' ∧ frames = (missing k rip).filterMap k'.lookup ++ [page] ∧
        frames.Nodup ∧ (∀ f ∈ frames, ¬A.allocated k.frames f) ∧
        Paging.translate 5 k'.mem k'.ctx.pgd rip = some page ∧
        (∀ q : List Index, q.length = 4 → q ≠ path rip → k'.lookup q = k.lookup q) ∧
        (∀ q g j, q.length < 4 → k.lookup q = some g → Present (k.mem g j) →
          k'.lookup q = some g ∧ k.mem g j &&& k'.mem g j = k.mem g j) ∧
        TableOk A k' := by
  constructor
  · intro hnone
    simp only [pageFault, hnone]
  · intro s frames a' hs hnone hsupply
    have hbare : ∀ page j, ¬Present (A.fill .osPt page j) := by
      intro page j
      rw [hzero]
      exact not_present_zero
    obtain ⟨k', page, hmap, hframes, hone⟩ :=
      mapPage_supplied (s := s) hA hbare hk hnone hsupply
    obtain ⟨hnodup, hfresh⟩ := supply_fresh hA hsupply
    refine ⟨k', page, ?_, hone.ctx, hframes, hone.frames, hnodup, hfresh, hone.found, hone.others,
      fun q g j hq hg hpres => ⟨hone.kept q g hq.le hg, hone.bits q g j hq hg hpres⟩, hone.ok⟩
    simp only [pageFault, hs, hmap, Option.map_some]

/-- The first access to DATA takes three tables and a page. -/
theorem fault_maps_first_page : ∃ k' page,
    pageFault bump 0x180000000 0 unmapped = some (.iretq k') ∧
      Paging.translate 5 k'.mem k'.ctx.pgd 0x180000000 = some page ∧ TableOk bump k' := by
  have hsupply : supply bump (needs unmapped 0x180000000) unmapped.frames =
      some ([2, 3, 4, 5], (6, [])) := by decide
  obtain ⟨k', page, hfault, -, -, -, -, -, hfound, -, -, hok⟩ :=
    (fault_maps_one_page bump bump_lawful (fun _ => rfl) unmapped unmapped_sound.1.table
      0x180000000 0).2 .data _ _ (by decide) (by decide) hsupply
  exact ⟨k', page, hfault, hfound, hok⟩

end OsAssignments.PageFaults
