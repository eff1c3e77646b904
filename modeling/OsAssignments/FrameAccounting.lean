import OsAssignments.Processes

/-!
# Whose frames they are

A process holds the frames that its table leads to. The fault handler adds to them
what the allocator hands out, SHRINK takes out what it gives back, and nothing else
in memory changes: the frames that are allocated to someone else stay allocated
and keep their words, and none is ever held by nobody.
-/
namespace OsAssignments.FrameAccounting

open Paging RadixTree PagingInvariant PageFaults Processes

variable {α : Type} {A : Allocator α} {k k' k'' : Kernel α} {p q : List Index} {i j : Index}
variable {frame table f g : Frame} {code address : Word} {region : Region} {a' : α} {s : MmSeg}

section Holding

/-- A table or page of the process. -/
def Held (k : Kernel α) (f : Frame) : Prop := Reached k.tree k.ctx.pgd 4 f

/-- A table of the process. -/
def Table (k : Kernel α) (f : Frame) : Prop := ∃ q : List Index, q.length < 4 ∧ k.lookup q = some f

/-- A frame that is allocated, but not to the process. -/
def Foreign (A : Allocator α) (k : Kernel α) (f : Frame) : Prop :=
  A.allocated k.frames f ∧ ¬Held k f

lemma Table.held (h : Table k f) : Held k f := by
  obtain ⟨q, hq, hf⟩ := h
  exact ⟨q, hq.le, hf⟩

/-- Frames come from the allocator only, and words change in tables only. -/
structure Grown (A : Allocator α) (k k' : Kernel α) : Prop where
  allocated : ∀ f, A.allocated k.frames f → A.allocated k'.frames f
  fresh : ∀ f, A.allocated k'.frames f → A.allocated k.frames f ∨ Held k' f
  held : ∀ f, Held k f → Held k' f
  new : ∀ f, Held k' f → Held k f ∨ ¬A.allocated k.frames f
  tables : ∀ f, Table k' f → Table k f ∨ ¬A.allocated k.frames f
  mem : ∀ f, A.allocated k.frames f → ¬Table k f → k'.mem f = k.mem f

/-- The frames of others are the same, with the words they had. -/
structure Contained (A : Allocator α) (k k' : Kernel α) : Prop where
  foreign : ∀ f, Foreign A k' f ↔ Foreign A k f
  mem : ∀ f, Foreign A k f → k'.mem f = k.mem f

lemma Grown.refl : Grown A k k :=
  ⟨fun _ => id, fun _ => Or.inl, fun _ => id, fun _ => Or.inl, fun _ => Or.inl, fun _ _ _ => rfl⟩

lemma Grown.trans (h : Grown A k k') (h' : Grown A k' k'') : Grown A k k'' := by
  refine ⟨fun f hf => h'.allocated f (h.allocated f hf), fun f hf => ?_,
    fun f hf => h'.held f (h.held f hf), fun f hf => ?_, fun f hf => ?_, fun f hf hnot => ?_⟩
  · obtain hf | hf := h'.fresh f hf
    · exact (h.fresh f hf).imp_right (h'.held f)
    · exact Or.inr hf
  · obtain hf | hf := h'.new f hf
    · exact h.new f hf
    · exact Or.inr fun hold => hf (h.allocated f hold)
  · obtain hf | hf := h'.tables f hf
    · exact h.tables f hf
    · exact Or.inr fun hold => hf (h.allocated f hold)
  · have hnot' : ¬Table k' f := fun htable => (h.tables f htable).elim hnot fun hfree => hfree hf
    rw [h'.mem f (h.allocated f hf) hnot', h.mem f hf hnot]

lemma Contained.refl : Contained A k k := ⟨fun _ => Iff.rfl, fun _ _ => rfl⟩

lemma Contained.trans (h : Contained A k k') (h' : Contained A k' k'') : Contained A k k'' := by
  refine ⟨fun f => (h'.foreign f).trans (h.foreign f), fun f hf => ?_⟩
  rw [h'.mem f ((h.foreign f).mpr hf), h.mem f hf]

end Holding

section Fault

variable (hA : Lawful A) (hzero : ∀ page j, ¬Present (A.fill .osPt page j)) (hk : TableOk A k)

/-- Access bits added to an entry. -/
lemma raise_grown (hp : k.lookup p = some frame) (hn : p.length < 4)
    (hcode : code.toNat < 4096) (hentry : Present (k.mem frame i)) :
    Grown A k (k.store frame i (k.mem frame i ||| code)) := by
  have htree : (k.store frame i (k.mem frame i ||| code)).tree = k.tree :=
    raise_tree hcode hentry
  have hheld : ∀ f, Held (k.store frame i (k.mem frame i ||| code)) f ↔ Held k f := by
    intro f
    rw [Held, htree]
    rfl
  refine ⟨fun _ => id, fun _ => Or.inl, fun f => (hheld f).mpr,
    fun f hf => Or.inl ((hheld f).mp hf), fun f ⟨q, hq, hf⟩ => Or.inl ⟨q, hq, ?_⟩,
    fun f _ hnot => ?_⟩
  · rwa [raise_lookup hcode hentry] at hf
  · apply store_mem_frame
    rintro rfl
    exact hnot ⟨p, hn, hp⟩

include hA hk

/-- A frame handed out and entered. -/
lemma give_grown (halloc : A.alloc region k.frames = some (f, a')) (hp : k.lookup p = some frame)
    (hn : p.length < 4) (hcode : code.toNat < 4096) (hpres : Present code)
    (hempty : ¬Present (k.mem frame i))
    (hbare : p.length + 1 = 4 ∨ ∀ j, ¬Present (A.fill region (k.mem f) j)) :
    Grown A k (k.give A region f a' code frame i) := by
  have hr := give_redirected hA hk halloc hp hn hcode hpres (hbare.imp_right fun h => ⟨hempty, h⟩)
  have hnone : k.lookup (p ++ [i]) = none := by rw [lookup_snoc hp, tree_of_not_present hempty]
  have hfree : ¬A.allocated k.frames f := hA.fresh halloc
  have hmark := hA.mark halloc
  have hself : Held (k.give A region f a' code frame i) f := by
    have hlen : (p ++ [i]).length ≤ 4 := by
      rw [List.length_append, List.length_singleton]
      omega
    exact ⟨p ++ [i], hlen, hr.self hlen⟩
  refine ⟨fun g hg => (hmark g).mpr (Or.inr hg), fun g hg => ?_,
    fun g ⟨q, hq, hg⟩ => ⟨q, hq, hr.kept hq hnone hg⟩, fun g hg => ?_,
    fun g ⟨q, hq, hg⟩ => ?_, fun g hg hnot => ?_⟩
  · obtain rfl | hg := (hmark g).mp hg
    · exact Or.inr hself
    · exact Or.inl hg
  · refine (hr.reached hg).imp_right fun heq => ?_
    rwa [← Option.some.inj heq]
  · by_cases hqp : q = p ++ [i]
    · subst hqp
      have heq : some f = some g := (hr.self hq.le).symm.trans hg
      refine Or.inr ?_
      rwa [← Option.some.inj heq]
    · exact Or.inl ⟨q, hq, (hr.other hq.le hqp).symm.trans hg⟩
  · funext j
    apply give_mem
    · rintro rfl
      exact hfree hg
    · rintro ⟨rfl, -⟩
      exact hnot ⟨p, hn, hp⟩

include hzero

lemma descend_grown (hp : k.lookup p = some frame) (hn : p.length < 3)
    (hcode : code.toNat < 4096) (hpres : Present code)
    (h : descend A code i frame k = some (table, k')) : Grown A k k' := by
  by_cases hentry : Present (k.mem frame i)
  · rw [descend_present hentry, Option.some.injEq, Prod.mk.injEq] at h
    obtain ⟨-, rfl⟩ := h
    exact raise_grown hp (by omega) hcode hentry
  · rw [descend_absent hA hk hp (by omega) hentry, Option.map_eq_some_iff] at h
    obtain ⟨⟨f, a'⟩, halloc, h⟩ := h
    rw [Prod.mk.injEq] at h
    obtain ⟨-, rfl⟩ := h
    exact give_grown hA hk halloc hp (by omega) hcode hpres hentry (Or.inr (hzero _))

/-- A page entered for an address without one. -/
theorem mapPage_grown (hnone : k.lookup (path address) = none)
    (h : mapPage A s address k = some k') : Grown A k k' := by
  simp only [mapPage, Option.bind_eq_some_iff, Option.map_eq_some_iff, osPfnAlloc, Prod.exists] at h
  obtain ⟨f₁, k₁, h₁, f₂, k₂, h₂, f₃, k₃, h₃, page, k₄, ⟨f, a', halloc, hk₄⟩, rfl⟩ := h
  rw [Prod.mk.injEq] at hk₄
  obtain ⟨rfl, rfl⟩ := hk₄
  generalize hcode : accessCode (k.ctx.mms s).accessFlags = code at *
  have hlt : code.toNat < 4096 := hcode ▸ accessCode_lt
  have hopen : Open code := hcode ▸ open_accessCode
  have hd₁ := descended_of_descend (p := []) hA hzero hk rfl (by norm_num) h₁ hlt hopen
  have hd₂ := descended_of_descend hA hzero hd₁.ok hd₁.self (by simp) h₂ hlt hopen
  have hd₃ := descended_of_descend hA hzero hd₂.ok hd₂.self (by simp) h₃ hlt hopen
  have hg₁ := descend_grown (p := []) hA hzero hk rfl (by norm_num) hlt hopen.present h₁
  have hg₂ := descend_grown hA hzero hd₁.ok hd₁.self (by simp) hlt hopen.present h₂
  have hg₃ := descend_grown hA hzero hd₂.ok hd₂.self (by simp) hlt hopen.present h₃
  have hself : k₃.lookup (tables address) = some f₃ := hd₃.self
  have hempty : ¬Present (k₃.mem f₃ (shift address 12)) := by
    rw [← tree_eq_none, ← lookup_snoc hself, ← path_eq,
      hd₃.others _ (by simp [path]) (by simp [path]),
      hd₂.others _ (by simp [path]) (by simp [path]),
      hd₁.others _ (by simp [path]) (by simp [path]), hnone]
  have hpage := give_grown (i := shift address 12) hA hd₃.ok halloc hself (by simp [tables]) hlt
    hopen.present hempty (Or.inl rfl)
  exact ((hg₁.trans hg₂).trans hg₃).trans hpage

end Fault

section Release

end Release

section Requests

variable {byte : BitVec 8} {n flag w : Word}

end Requests

section Runs

variable {id : BitVec 32} {fuel : ℕ} {write : Bool}

variable (hA : Lawful A) (hzero : ∀ page j, ¬Present (A.fill .osPt page j))
include hA hzero

end Runs

section Accounts

end Accounts

end OsAssignments.FrameAccounting
