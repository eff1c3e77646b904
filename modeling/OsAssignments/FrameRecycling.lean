import OsAssignments.PagingInvariant

/-!
# What recycled frames give away

Two runs of the same events, from memories that differ in frames that are not
allocated. The fault handler clears neither the tables nor the pages it gets, so
what such a frame held before stays visible; the runs look alike as long as every
frame handed out for a table is free of entries that are present, and every frame
handed out for a page holds the same in both memories.
-/
namespace OsAssignments.FrameRecycling

open Paging RadixTree
open Machine (Along Alike rel_bind)
open PagingInvariant (bump bump_lawful unmapped unmapped_sound pagingRun)

variable {α : Type} {A : Allocator α} {k₁ k₂ k₁' k₂' : Kernel α} {p q : List Index}
variable {frame f g : Frame} {i : Index} {w code need address rip : Word}

section Same

/-- A table or page at depth `n` in two memories: equal words, but for entries of a table
that are present in neither. -/
def Agrees (k₁ k₂ : Kernel α) (n : ℕ) (g : Frame) : Prop :=
  ∀ j, k₂.mem g j = k₁.mem g j ∨ n < 4 ∧ ¬Present (k₁.mem g j) ∧ ¬Present (k₂.mem g j)

/-- Two machines that differ in nothing that can be reached from the top table. -/
structure Same (A : Allocator α) (k₁ k₂ : Kernel α) : Prop where
  ctx : k₂.ctx = k₁.ctx
  frames : k₂.frames = k₁.frames
  ok : TableOk A k₁
  agrees : ∀ q g, q.length ≤ 4 → k₁.lookup q = some g → Agrees k₁ k₂ q.length g

lemma Agrees.present_iff {n : ℕ} (h : Agrees k₁ k₂ n g) :
    Present (k₂.mem g i) ↔ Present (k₁.mem g i) := by
  rcases h i with heq | ⟨-, h₁, h₂⟩
  · rw [heq]
  · exact iff_of_false h₂ h₁

lemma Agrees.word {n : ℕ} (h : Agrees k₁ k₂ n g) (hpres : Present (k₁.mem g i)) :
    k₂.mem g i = k₁.mem g i :=
  (h i).resolve_right fun hnone => hnone.2.1 hpres

lemma Agrees.links_eq {n : ℕ} (h : Agrees k₁ k₂ n g) (hneed : need &&& 1 = 1) :
    links need k₂.mem g = links need k₁.mem g := by
  funext j
  rcases h j with heq | ⟨-, h₁, h₂⟩
  · rw [links, links, heq]
  · rw [links_of_not_present hneed h₁, links_of_not_present hneed h₂]

namespace Same

variable (h : Same A k₁ k₂)
include h

/-- Accesses of any kind reach the same tables and pages. -/
lemma follow_links (hneed : need &&& 1 = 1) (hq : q.length ≤ 4) :
    follow (links need k₂.mem) k₂.ctx.pgd q = follow (links need k₁.mem) k₁.ctx.pgd q := by
  rw [h.ctx]
  refine follow_congr (fun p f hp hf => ?_) hq
  exact (h.agrees p f hp.le (lookup_of_links hneed hf)).links_eq hneed

lemma lookup_eq (hq : q.length ≤ 4) : k₂.lookup q = k₁.lookup q := h.follow_links (by decide) hq

lemma translate_eq (address : Word) (hneed : need &&& 1 = 1) :
    translate need k₂.mem k₂.ctx.pgd address = translate need k₁.mem k₁.ctx.pgd address :=
  h.follow_links hneed (by simp [path])

lemma ok_right : TableOk A k₂ := by
  refine ⟨fun p q f hp hq hf hf' => ?_, fun f ⟨p, hp, hf⟩ => ?_⟩
  · exact h.ok.tree p q f hp hq ((h.lookup_eq hp).symm.trans hf) ((h.lookup_eq hq).symm.trans hf')
  · rw [h.frames]
    exact h.ok.allocated f ⟨p, hp, (h.lookup_eq hp).symm.trans hf⟩

/-- A page that is reached holds the same in both memories. -/
lemma page (hq : q.length = 4) (hg : k₁.lookup q = some g) : k₂.mem g = k₁.mem g :=
  funext fun j => (h.agrees q g hq.le hg j).resolve_right fun hnone => absurd hnone.1 (by omega)

/-- One word is stored in both memories, and what is reached afterwards was reached before
or agrees. -/
lemma store (hok : TableOk A k₁') (hmem₁ : k₁'.mem = (k₁.store f i w).mem)
    (hmem₂ : k₂'.mem = (k₂.store f i w).mem) (hctx : k₂'.ctx = k₁'.ctx)
    (hframes : k₂'.frames = k₁'.frames)
    (hreach : ∀ q g, q.length ≤ 4 → k₁'.lookup q = some g →
      k₁.lookup q = some g ∨ Agrees k₁ k₂ q.length g) : Same A k₁' k₂' := by
  refine ⟨hctx, hframes, hok, fun q g hq hg j => ?_⟩
  rw [hmem₁, hmem₂]
  by_cases hcell : g = f ∧ j = i
  · obtain ⟨rfl, rfl⟩ := hcell
    rw [store_mem_self, store_mem_self]
    exact Or.inl rfl
  · rw [store_mem_ne hcell, store_mem_ne hcell]
    rcases hreach q g hq hg with hold | hagrees
    · exact h.agrees q g hq hold j
    · exact hagrees j

end Same

end Same

section Levels

/-- A property of the frames handed out for some requests in turn. -/
def Handed (A : Allocator α) (P : Region → Frame → Prop) : List Region → α → Prop
  | [], _ => True
  | region :: rest, a => ∀ f a', A.alloc region a = some (f, a') →
      P region f ∧ Handed A P rest a'

def decidableHanded (A : Allocator α) (P : Region → Frame → Prop)
    [∀ region f, Decidable (P region f)] : ∀ regions a, Decidable (Handed A P regions a)
  | [], _ => isTrue trivial
  | region :: rest, a =>
    match halloc : A.alloc region a with
    | none => isTrue (by simp [Handed, halloc])
    | some (f, a') =>
      have : Decidable (Handed A P rest a') := decidableHanded A P rest a'
      decidable_of_iff (P region f ∧ Handed A P rest a') (by simp [Handed, halloc])

instance (A : Allocator α) (P : Region → Frame → Prop) [∀ region f, Decidable (P region f)]
    (regions : List Region) (a : α) : Decidable (Handed A P regions a) :=
  decidableHanded A P regions a

/-- The request for a table that a path does not lead to yet. -/
def missing (k : Kernel α) (q : List Index) : List Region :=
  if k.lookup q = none then [.osPt] else []

/-- The frames a fault asks for. -/
def needed (k : Kernel α) (rip : Word) : List Region :=
  missing k [shift rip 39] ++ (missing k [shift rip 39, shift rip 30] ++
    (missing k (tables rip) ++ [.user]))

/-- A frame that may be handed out: free of entries as a table, and the same in both memories
as a page. -/
def Clean (k₁ k₂ : Kernel α) (region : Region) (f : Frame) : Prop :=
  if region = .user then k₂.mem f = k₁.mem f
  else ∀ j, ¬Present (k₁.mem f j) ∧ ¬Present (k₂.mem f j)

instance {P : Index → Prop} [DecidablePred P] : Decidable (∀ j, P j) :=
  decidable_of_iff (∀ j : Fin 512, P (BitVec.ofFin j))
    ⟨fun h j => h j.toFin, fun h j => h (BitVec.ofFin j)⟩

instance (k₁ k₂ : Kernel α) (region : Region) (f : Frame) : Decidable (Clean k₁ k₂ region f) :=
  have : Decidable (k₂.mem f = k₁.mem f) :=
    decidable_of_iff (∀ j, k₂.mem f j = k₁.mem f j) funext_iff.symm
  inferInstanceAs (Decidable (if region = .user then _ else ∀ _, _ ∧ _))

/-- Two walks of the fault handler at the table of a path, with the requests that remain. -/
structure Walked (A : Allocator α) (K₁ K₂ : Kernel α) (p : List Index) (rest : List Region)
    (x y : Frame × Kernel α) : Prop where
  same : Same A x.2 y.2
  frame : y.1 = x.1
  here : x.2.lookup p = some x.1
  deeper : ∀ q, p.length < q.length → q.length ≤ 4 → x.2.lookup q = K₁.lookup q
  untouched : ∀ f, ¬A.allocated x.2.frames f → x.2.mem f = K₁.mem f ∧ y.2.mem f = K₂.mem f
  handed : Handed A (Clean K₁ K₂) rest x.2.frames

end Levels

section Faults

variable {region : Region} {a' : α} {rest : List Region} {K₁ K₂ : Kernel α}
variable (hA : Lawful A) (hfill : ∀ region page, A.fill region page = page)
include hfill

/-- A frame that is entered as it is. -/
lemma give_mem_eq {k : Kernel α} :
    (k.give A region f a' code frame i).mem = (k.store frame i (entryFor code f)).mem := by
  have hreceive : (k.receive A region f a').mem = k.mem := by
    rw [Kernel.receive, hfill]
    exact Function.update_eq_self f k.mem
  rw [Kernel.give, Kernel.store, Kernel.store, hreceive]

variable (hcode : code.toNat < 4096) (hpres : Present code)
include hA hcode hpres

/-- A frame is entered in both page tables. -/
lemma Same.give (h : Same A k₁ k₂) (halloc : A.alloc region k₁.frames = some (f, a'))
    (hp : k₁.lookup p = some frame) (hn : p.length < 4)
    (hlast : p.length + 1 = 4 ∨ ¬Present (k₁.mem frame i) ∧ ∀ j, ¬Present (k₁.mem f j))
    (hagrees : Agrees k₁ k₂ (p.length + 1) f) :
    Same A (k₁.give A region f a' code frame i) (k₂.give A region f a' code frame i) := by
  have hlast' : p.length + 1 = 4 ∨
      ¬Present (k₁.mem frame i) ∧ ∀ j, ¬Present (A.fill region (k₁.mem f) j) := by
    rwa [hfill]
  have hr := give_redirected hA h.ok halloc hp hn hcode hpres hlast'
  refine h.store (give_ok hA h.ok halloc hp hn hcode hpres hlast') (give_mem_eq hfill)
    (give_mem_eq hfill) h.ctx rfl fun q g hq hg => ?_
  by_cases hqp : q = p ++ [i]
  · subst hqp
    have hself : (k₁.give A region f a' code frame i).lookup (p ++ [i]) = some f := hr.self hq
    rw [hself, Option.some.injEq] at hg
    rw [← hg, List.length_append, List.length_singleton]
    exact Or.inr hagrees
  · exact Or.inl ((hr.other hq hqp).symm.trans hg)

/-- One level of the two walks. -/
theorem Walked.descend {frame' : Frame} (hn : p.length < 3)
    (h : Walked A K₁ K₂ p (missing K₁ (p ++ [i]) ++ rest) (frame, k₁) (frame', k₂)) :
    Option.Rel (Walked A K₁ K₂ (p ++ [i]) rest) (descend A code i frame k₁)
      (descend A code i frame' k₂) := by
  obtain ⟨hsame, rfl, hhere, hdeeper, huntouched, hhanded⟩ := h
  dsimp only at hsame hhere hdeeper huntouched hhanded ⊢
  have hlen : (p ++ [i]).length = p.length + 1 := by rw [List.length_append, List.length_singleton]
  have hagrees := hsame.agrees p frame' (by omega) hhere
  have halive : A.allocated k₁.frames frame' := hsame.ok.allocated _ ⟨p, by omega, hhere⟩
  have hnext : K₁.lookup (p ++ [i]) = k₁.tree frame' i := by
    rw [← hdeeper _ (by omega) (by omega), lookup_snoc hhere]
  by_cases hentry : Present (k₁.mem frame' i)
  · rw [missing, if_neg (by rw [hnext, tree_of_present hentry]; exact nofun),
      List.nil_append] at hhanded
    rw [descend_present hentry, descend_present (hagrees.present_iff.mpr hentry),
      hagrees.word hentry]
    refine .some ⟨hsame.store (raise_ok hsame.ok hcode hentry) rfl rfl hsame.ctx hsame.frames
      fun q g _ hg => Or.inl ?_, rfl, ?_, fun q hlt hq => ?_, fun f hf => ?_, hhanded⟩
    · rwa [raise_lookup hcode hentry] at hg
    · rw [raise_lookup hcode hentry, lookup_snoc hhere, tree_of_present hentry]
    · rw [raise_lookup hcode hentry]
      exact hdeeper q (by omega) hq
    · have hne : f ≠ frame' := fun heq => hf (heq ▸ halive)
      rw [store_mem_frame hne, store_mem_frame hne]
      exact huntouched f hf
  · rw [missing, if_pos (by rw [hnext, tree_of_not_present hentry])] at hhanded
    have hhere₂ : k₂.lookup p = some frame' := (hsame.lookup_eq (by omega)).trans hhere
    rw [descend_absent hA hsame.ok hhere (by omega) hentry, descend_absent hA hsame.ok_right hhere₂
      (by omega) (fun hpres₂ => hentry (hagrees.present_iff.mp hpres₂)), hsame.frames]
    cases halloc : A.alloc .osPt k₁.frames with
    | none => exact .none
    | some x =>
      obtain ⟨f, a'⟩ := x
      obtain ⟨hclean, hrest⟩ := hhanded f a' halloc
      obtain ⟨hold₁, hold₂⟩ := huntouched f (hA.fresh halloc)
      have hbare : ∀ j, ¬Present (k₁.mem f j) ∧ ¬Present (k₂.mem f j) := by
        rw [hold₁, hold₂]
        exact hclean
      have hlast : p.length + 1 = 4 ∨
          ¬Present (k₁.mem frame' i) ∧ ∀ j, ¬Present (A.fill .osPt (k₁.mem f) j) := by
        rw [hfill]
        exact Or.inr ⟨hentry, fun j => (hbare j).1⟩
      have hr := give_redirected hA hsame.ok halloc hhere (by omega) hcode hpres hlast
      refine .some ⟨hsame.give hA hfill hcode hpres halloc hhere (by omega)
        (Or.inr ⟨hentry, fun j => (hbare j).1⟩) fun j => Or.inr ⟨by omega, hbare j⟩, rfl,
        hr.self (by omega), fun q hlt hq => ?_, fun g hg => ?_, hrest⟩
      · refine (hr.other hq ?_).trans (hdeeper q (by omega) hq)
        rintro rfl
        omega
      · have hg' : ¬A.allocated k₁.frames g := fun hold => hg ((hA.mark halloc g).mpr (Or.inr hold))
        have hne : g ≠ frame' := fun heq => hg' (heq ▸ halive)
        rw [give_mem_eq hfill, give_mem_eq hfill, store_mem_frame hne, store_mem_frame hne]
        exact huntouched g hg'

/-- The last level of the two walks: a page is entered. -/
theorem Walked.enter {frame' : Frame} (hlen : p.length = 3)
    (h : Walked A K₁ K₂ p [.user] (frame, k₁) (frame', k₂)) :
    Option.Rel (Same A)
      ((osPfnAlloc A .user k₁).map fun x => x.2.store frame i (entryFor code x.1))
      ((osPfnAlloc A .user k₂).map fun x => x.2.store frame' i (entryFor code x.1)) := by
  obtain ⟨hsame, rfl, hhere, -, huntouched, hhanded⟩ := h
  dsimp only at hsame hhere huntouched hhanded ⊢
  rw [osPfnAlloc, osPfnAlloc, hsame.frames]
  cases halloc : A.alloc .user k₁.frames with
  | none => exact .none
  | some x =>
    obtain ⟨f, a'⟩ := x
    obtain ⟨hold₁, hold₂⟩ := huntouched f (hA.fresh halloc)
    have hpage : k₂.mem f = k₁.mem f := by
      rw [hold₁, hold₂]
      exact (hhanded f a' halloc).1
    exact .some (hsame.give hA hfill hcode hpres halloc hhere (by omega) (Or.inl (by omega))
      fun j => Or.inl (congrFun hpage j))

omit hcode hpres in
/-- The body of a branch of the fault handler. -/
theorem mapPage_same {segment : MmSeg} (h : Same A k₁ k₂)
    (hclean : Handed A (Clean k₁ k₂) (needed k₁ rip) k₁.frames) :
    Option.Rel (Same A) (mapPage A segment rip k₁) (mapPage A segment rip k₂) := by
  have hlt : (accessCode (k₁.ctx.mms segment).accessFlags).toNat < 4096 := accessCode_lt
  have hcode : Present (accessCode (k₁.ctx.mms segment).accessFlags) := present_accessCode
  have hstart : Walked A k₁ k₂ [] (needed k₁ rip) (k₁.ctx.pgd, k₁) (k₁.ctx.pgd, k₂) :=
    ⟨h, rfl, rfl, fun _ _ _ => rfl, fun _ _ => ⟨rfl, rfl⟩, hclean⟩
  rw [mapPage, mapPage, h.ctx]
  refine rel_bind (Walked.descend hA hfill hlt hcode (by norm_num) hstart) fun _ _ h₁ => ?_
  refine rel_bind (Walked.descend hA hfill hlt hcode (by simp) h₁) fun _ _ h₂ => ?_
  refine rel_bind (Walked.descend hA hfill hlt hcode (by simp) h₂) fun _ _ h₃ => ?_
  exact Walked.enter hA hfill hlt hcode (by simp) h₃

end Faults

section Releases

variable (hA : Lawful A)
include hA

theorem free1_same (address : Word) (h : Same A k₁ k₂) :
    Same A (free1 A address k₁.ctx.pgd k₁) (free1 A address k₂.ctx.pgd k₂) := by
  have hr := free1_spec address hA h.ok
  cases hpage : k₁.lookup (path address) with
  | none =>
    have hpage₂ : k₂.lookup (path address) = none := (h.lookup_eq (by simp [path])).trans hpage
    rwa [free1_absent hpage, free1_absent hpage₂]
  | some page =>
    obtain ⟨g, hg⟩ : ∃ g, k₁.lookup (tables address) = some g :=
      exists_follow_of_isPrefix (List.prefix_append _ [shift address 12]) hpage
    have hpres : Present (k₁.mem g (shift address 12)) := by
      by_contra hnone
      rw [path_eq, lookup_snoc hg, tree_of_not_present hnone] at hpage
      cases hpage
    have hagrees := h.agrees _ _ (by simp [tables]) hg
    have hg₂ : k₂.lookup (tables address) = some g := (h.lookup_eq (by simp [tables])).trans hg
    have hreach : ∀ q g', q.length ≤ 4 → (free1 A address k₁.ctx.pgd k₁).lookup q = some g' →
        k₁.lookup q = some g' ∨ Agrees k₁ k₂ q.length g' := by
      intro q g' hq hg'
      by_cases hqp : q = path address
      · rw [hqp, hr.gone] at hg'
        cases hg'
      · exact Or.inl ((hr.others q hq hqp).symm.trans hg')
    have hok := hr.ok
    rw [free1_present hg hpres] at hok hreach ⊢
    rw [free1_present hg₂ (hagrees.present_iff.mpr hpres), hagrees.word hpres]
    refine h.store hok rfl rfl h.ctx ?_ hreach
    exact congrArg (A.free .user (pfn (k₁.mem g (shift address 12)))) h.frames

theorem freePages_same (h : Same A k₁ k₂) (curr : Word) (n : ℕ) :
    Same A (freePages A curr k₁.ctx.pgd n k₁) (freePages A curr k₂.ctx.pgd n k₂) := by
  induction n with
  | zero => exact h
  | succ n ih =>
    have hctx₁ := (PagingInvariant.freePages_spec hA h.ok curr n).ctx
    have hctx₂ := (PagingInvariant.freePages_spec hA h.ok_right curr n).ctx
    rw [freePages_succ, freePages_succ]
    have hfree := free1_same hA (curr - 4096 * (BitVec.ofNat 64 n + 1)) ih
    rwa [hctx₁, hctx₂] at hfree

end Releases

section Events

variable (hA : Lawful A) (hfill : ∀ region page, A.fill region page = page)

lemma setNextFree_same {segment : MmSeg} (h : Same A k₁ k₂) :
    Same A (k₁.setNextFree segment w) (k₂.setNextFree segment w) := by
  refine ⟨?_, h.frames, ⟨h.ok.tree, h.ok.allocated⟩, h.agrees⟩
  simp only [Kernel.setNextFree, h.ctx]

theorem expand_same {n flag : Word} (h : Same A k₁ k₂) :
    Alike (Same A) (sysExpand n flag k₁) (sysExpand n flag k₂) := by
  simp only [sysExpand, h.ctx]
  split_ifs
  · exact ⟨h, rfl⟩
  · exact ⟨setNextFree_same h, rfl⟩

include hA in
theorem shrink_same {n flag : Word} (h : Same A k₁ k₂) :
    Alike (Same A) (sysShrink A n flag k₁) (sysShrink A n flag k₂) := by
  simp only [sysShrink]
  have hfree := freePages_same hA h (k₁.ctx.mms (requested flag)).nextFree n.toNat
  have hlimit := congrArg (fun ctx => ctx.mms (requested flag)) h.ctx
  rw [hlimit]
  split_ifs
  · exact ⟨h, rfl⟩
  · have hlimit' := congrArg (fun ctx => (ctx.mms (requested flag)).nextFree) hfree.ctx
    rw [hlimit']
    exact ⟨setNextFree_same hfree, rfl⟩

theorem userStore_same {byte : BitVec 8} (h : Same A k₁ k₂) :
    Same A (userStore address byte k₁) (userStore address byte k₂) := by
  obtain ⟨hctx, hframes, htables⟩ := userStore_spec address byte h.ok
  have hok := h.ok.congr hctx hframes htables
  have hlook : ∀ q : List Index, q.length ≤ 4 →
      (userStore address byte k₁).lookup q = k₁.lookup q := fun q => lookup_congr hctx htables
  have htr := h.translate_eq address (show (7 : Word) &&& 1 = 1 by decide)
  cases hpage : translate 7 k₁.mem k₁.ctx.pgd address with
  | none => simpa only [userStore, htr, hpage] using h
  | some page =>
    have hword : k₂.mem page = k₁.mem page :=
      h.page (by simp [path]) (lookup_of_translate (by decide) hpage)
    simp only [userStore, htr, hpage, hword] at hok hlook ⊢
    exact h.store hok rfl rfl h.ctx h.frames fun q g hq hg => Or.inl ((hlook q hq).symm.trans hg)

/-- The faults that the handler answers with a page. -/
def Accepted (k : Kernel α) (rip errorCode : Word) : Prop :=
  let data := k.ctx.mms .data
  let rodata := k.ctx.mms .rodata
  let stack := k.ctx.mms .stack
  (data.start ≤ rip ∧ rip < data.nextFree ∧ errorCode &&& 1 = 0) ∨
    (rodata.start ≤ rip ∧ rip < rodata.nextFree ∧ errorCode &&& 2 = 0 ∧ errorCode &&& 1 = 0) ∨
    (stack.start ≤ rip ∧ rip < stack.limit ∧ errorCode &&& 1 = 0)

/-- The frames that a fault gets hold nothing that could be told apart. -/
def Untainted (A : Allocator α) (k : Kernel α × Kernel α) : Event → Prop
  | .fault rip errorCode => Accepted k.1 rip errorCode →
      Handed A (Clean k.1 k.2) (needed k.1 rip) k.1.frames
  | _ => True

instance (A : Allocator α) (k : Kernel α × Kernel α) : (e : Event) → Decidable (Untainted A k e)
  | .fault _ _ => inferInstanceAs (Decidable (_ ∨ _ ∨ _ → _))
  | .expand _ _ | .shrink _ _ | .store _ _ => inferInstanceAs (Decidable True)

include hA hfill in
theorem fault_same {errorCode : Word} (h : Same A k₁ k₂)
    (hclean : Untainted A (k₁, k₂) (.fault rip errorCode)) :
    Option.Rel (Same A) (handlePageFault A rip errorCode k₁)
      (handlePageFault A rip errorCode k₂) := by
  simp only [handlePageFault, h.ctx]
  split_ifs with hdata hrodata hstack
  · exact mapPage_same hA hfill h (hclean (Or.inl hdata))
  · exact mapPage_same hA hfill h (hclean (Or.inr (Or.inl hrodata)))
  · exact mapPage_same hA hfill h (hclean (Or.inr (Or.inr hstack)))
  · exact .none

include hA hfill in
theorem exec_same {e : Event} (h : Same A k₁ k₂) (hclean : Untainted A (k₁, k₂) e) :
    Option.Rel (Alike (Same A)) (Paging.exec A k₁ e) (Paging.exec A k₂ e) := by
  cases e with
  | fault rip errorCode =>
    rw [Paging.exec, Paging.exec, Option.map_eq_bind, Option.map_eq_bind]
    exact rel_bind (fault_same hA hfill h hclean) fun _ _ hsame => .some ⟨hsame, rfl⟩
  | expand n flag => exact .some (expand_same h)
  | shrink n flag => exact .some (shrink_same hA h)
  | store address byte => exact .some ⟨userStore_same h, rfl⟩

end Events

section Runs

/-- Every read in user mode finds the same frame and the same byte. -/
def SameView (k₁ k₂ : Kernel α) : Prop :=
  ∀ address,
    Paging.translate 5 k₁.mem k₁.ctx.pgd address = Paging.translate 5 k₂.mem k₂.ctx.pgd address ∧
    userLoad k₁ address = userLoad k₂ address

lemma Same.view (h : Same A k₁ k₂) : SameView k₁ k₂ := by
  intro address
  have htr := h.translate_eq address (show (5 : Word) &&& 1 = 1 by decide)
  refine ⟨htr.symm, ?_⟩
  rw [userLoad, userLoad, htr]
  cases hpage : translate 5 k₁.mem k₁.ctx.pgd address with
  | none => rfl
  | some page =>
    have hword := h.page (by simp [path]) (lookup_of_translate (by decide) hpage)
    simp only [Option.map_some, hword]

/-- Machines that agree on the frames that are allocated. -/
lemma same_of_allocated {k : Kernel α} {mem : Memory} (hk : TableOk A k)
    (hmem : ∀ f, A.allocated k.frames f → mem f = k.mem f) : Same A k { k with mem } :=
  ⟨rfl, rfl, hk, fun q g hq hg j => Or.inl (congrFun (hmem g (hk.allocated g ⟨q, hq, hg⟩)) j)⟩

/-- Runs from memories that differ in frames that are not allocated look alike when no frame
handed out on the way can be told apart. -/
theorem untainted_leaks_nothing (A : Allocator α) (hA : Lawful A)
    (hfill : ∀ region page, A.fill region page = page) (k : Kernel α) (hk : TableOk A k)
    (mem : Memory) (hmem : ∀ f, A.allocated k.frames f → mem f = k.mem f) (es : List Event)
    (hes : Along (Machine.both (Paging.exec A) (Paging.exec A))
      (Untainted A) (k, { k with mem }) es) :
    Option.Rel (Alike SameView) (Machine.run (Paging.exec A) k es)
      (Machine.run (Paging.exec A) { k with mem } es) := by
  have hstep : ∀ s t e, Same A s t → Untainted A (s, t) e →
      Option.Rel (Alike (Same A)) (Paging.exec A s e) (Paging.exec A t e) :=
    fun _ _ _ hsame he => exec_same hA hfill hsame he
  have hrun := hes.agree_both hstep (same_of_allocated hk hmem)
  generalize Machine.run (Paging.exec A) k es = x at hrun ⊢
  generalize Machine.run (Paging.exec A) { k with mem } es = y at hrun ⊢
  cases hrun with
  | none => exact .none
  | some h => exact .some ⟨h.1.view, h.2⟩

/-- The allocator that leaves in a frame what it held. -/
def keeping : Allocator (ℕ × List Frame) := { bump with fill := fun _ page => page }

lemma keeping_lawful : Lawful keeping := by
  have halloc : ∀ {region a x}, keeping.alloc region a = some x → bump.alloc region a = some x := id
  exact ⟨fun h => bump_lawful.fresh (halloc h), fun h => bump_lawful.below (halloc h),
    fun h => bump_lawful.mark (halloc h), @fun region _ _ => @bump_lawful.unmark region _ _⟩

lemma unmapped_table : TableOk keeping unmapped :=
  ⟨unmapped_sound.1.table.tree, unmapped_sound.1.table.allocated⟩

/-- Memory with something left over in one frame. -/
def leftover (f : Frame) : Memory := fun g _ => if g = f then 255 else 0

lemma leftover_of_ne (h : g ≠ f) : leftover f g = unmapped.mem g := funext fun _ => if_neg h

lemma leftover_allocated (hf : ¬f.toNat < 2) (hg : keeping.allocated unmapped.frames g) :
    leftover f g = unmapped.mem g := by
  apply leftover_of_ne
  rintro rfl
  exact hf hg.1

/-- What frame 12 holds stays unseen, as the frame is not handed out. -/
theorem untainted_leaks_nothing_first :
    Option.Rel (Alike SameView) (Machine.run (Paging.exec keeping) unmapped pagingRun)
      (Machine.run (Paging.exec keeping) { unmapped with mem := leftover 12 } pagingRun) :=
  untainted_leaks_nothing keeping keeping_lawful (fun _ _ => rfl) unmapped unmapped_table
    (leftover 12) (fun _ hf => leftover_allocated (by decide) hf) pagingRun (by decide +kernel)

lemma userLoad_of_view {x y : Option (Kernel α × List (Option Word))}
    (h : Option.Rel (Alike SameView) x y) (address : Word) :
    (x.map fun z => userLoad z.1 address) = y.map fun z => userLoad z.1 address := by
  cases h with
  | none => rfl
  | some h => exact congrArg some (h.1 address).2

/-- Frame 5 becomes the page of an access to DATA, and what it held can be read there. -/
theorem leftover_page_read : ¬∀ (α : Type) (A : Allocator α) (_ : Lawful A)
    (_ : ∀ region page, A.fill region page = page) (k : Kernel α) (_ : TableOk A k) (mem : Memory)
    (_ : ∀ f, A.allocated k.frames f → mem f = k.mem f) (es : List Event),
    Option.Rel (Alike SameView) (Machine.run (Paging.exec A) k es)
      (Machine.run (Paging.exec A) { k with mem } es) := by
  intro hclaim
  have hview := hclaim _ keeping keeping_lawful (fun _ _ => rfl) unmapped unmapped_table
    (leftover 5) (fun f hf => leftover_allocated (by decide) hf) [.fault 0x180000000 0]
  have hread := userLoad_of_view hview 0x180000000
  have hzero : (Machine.run (Paging.exec keeping) unmapped [.fault 0x180000000 0]).map
      (fun z => userLoad z.1 0x180000000) = some (some 0) := by decide
  have hfull : (Machine.run (Paging.exec keeping) { unmapped with mem := leftover 5 }
      [.fault 0x180000000 0]).map (fun z => userLoad z.1 0x180000000) = some (some 255) := by decide
  rw [hzero, hfull] at hread
  cases hread

end Runs

end OsAssignments.FrameRecycling
