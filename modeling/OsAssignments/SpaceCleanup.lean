import OsAssignments.ActualSpace
import OsAssignments.ContextMmSpace

/-!
# Tearing an address space down

Both programs collect the tables of each level for the three pages, drop duplicates
and give the rest back. The tables of one level are told apart by their frames, the
tables of different levels because the tables form a tree.
-/
namespace OsAssignments.AddressSpace

open Paging (Word Frame Index Memory Region pfn shift path links translate)
open RadixTree PathTables

variable {frames : ℕ → Frame} {s : State} {r f a b c : Frame} {p q : List Index} {i : Index}
variable {T : PathTable Frame Index} {base : List Index → Word} {pages : List Frame}

section Duplicates

/-- Three frames without the later duplicates. -/
def once (a b c : Frame) : List Frame :=
  a :: ((if b = a then [] else [b]) ++ if c = a ∨ c = b then [] else [c])

lemma mem_once : f ∈ once a b c ↔ f = a ∨ f = b ∨ f = c := by
  unfold once
  split_ifs with hba hca hca
  · have hcb : c = a := hca.elim id (·.trans hba)
    simp [hba, hcb]
  · simp [hba]
  · rcases hca with rfl | rfl
    · simp [or_comm, or_left_comm]
    · simp
  · simp

lemma nodup_once : (once a b c).Nodup := by
  unfold once
  split_ifs with hba hca hca
  · simp
  · simp [Ne.symm (not_or.mp hca).1]
  · simp [Ne.symm hba]
  · obtain ⟨hca, hcb⟩ := not_or.mp hca
    simp [Ne.symm hba, Ne.symm hca, Ne.symm hcb]

lemma length_once : (once a b c).length =
    1 + (if b = a then 0 else 1) + if c = a ∨ c = b then 0 else 1 := by
  unfold once
  split_ifs <;> rfl

lemma length_once_le : (once a b c).length ≤ 3 := by
  rw [length_once]
  split_ifs <;> simp

lemma length_once_of_eq (h : a = b ∨ a = c ∨ b = c) : (once a b c).length ≤ 2 := by
  rw [length_once]
  rcases h with rfl | rfl | rfl
  · rw [if_pos rfl]
    split_ifs <;> simp
  · rw [if_pos (Or.inl rfl)]
    split_ifs <;> simp
  · rw [if_pos (Or.inr rfl)]
    split_ifs <;> simp

lemma length_once_of_ne (hab : a ≠ b) (hac : a ≠ c) (hbc : b ≠ c) : (once a b c).length = 3 := by
  rw [length_once, if_neg hab.symm, if_neg (not_or.mpr ⟨hac.symm, hbc.symm⟩)]

/-- Pages and tables that are given back, each once. -/
lemma nodup_freed {ps ts : List Frame} (hps : ps.Nodup) (hts : ts.Nodup) :
    (ps.map (Prod.mk Region.user) ++ ts.map (Prod.mk Region.osPt)).Nodup := by
  refine List.nodup_append.mpr ⟨hps.map (Prod.mk_right_injective _),
    hts.map (Prod.mk_right_injective _), fun x hx y hy => ?_⟩
  obtain ⟨f, -, rfl⟩ := List.mem_map.mp hx
  obtain ⟨g, -, rfl⟩ := List.mem_map.mp hy
  rintro ⟨⟩

end Duplicates

section Tables

variable {x y z : Word} {u v w : List Index → Bool} {fx fy fz : Frame} {n m : ℕ}

/-- A table behind a path of `n` indices. -/
def AtDepth (r : Frame) (T : PathTable Frame Index) (n : ℕ) (f : Frame) : Prop :=
  ∃ p : List Index, p.length = n ∧ frameAt r T p = some f

/-- A level has the tables of the three pages, and no others. -/
lemma atDepth_iff {π₁ π₂ π₃ : List Index} (hT : ThreePaths T π₁ π₂ π₃ u v w fx fy fz) (hn : n ≠ 0)
    (hlen₁ : n ≤ π₁.length) (hlen₂ : n ≤ π₂.length) (hlen₃ : n ≤ π₃.length)
    (ha : frameAt r T (π₁.take n) = some a) (hb : frameAt r T (π₂.take n) = some b)
    (hc : frameAt r T (π₃.take n) = some c) : AtDepth r T n f ↔ f = a ∨ f = b ∨ f = c := by
  constructor
  · rintro ⟨p, hp, hf⟩
    have hne : p ≠ [] := by
      rintro rfl
      exact hn hp.symm
    have hsome : (T p).isSome := by
      rw [frameAt, if_neg (by simpa using hne)] at hf
      rw [← Option.isSome_map (f := Prod.fst), hf]
      rfl
    rcases ((hT.isSome p).mp hsome).2 with hpre | hpre | hpre <;>
      rw [List.prefix_iff_eq_take.mp hpre, hp] at hf
    · exact Or.inl (Option.some.inj (hf.symm.trans ha))
    · exact Or.inr (Or.inl (Option.some.inj (hf.symm.trans hb)))
    · exact Or.inr (Or.inr (Option.some.inj (hf.symm.trans hc)))
  · rintro (rfl | rfl | rfl)
    · exact ⟨_, List.length_take_of_le hlen₁, ha⟩
    · exact ⟨_, List.length_take_of_le hlen₂, hb⟩
    · exact ⟨_, List.length_take_of_le hlen₃, hc⟩

variable (h : Built frames s r T base pages)
include h

/-- The tables of one level are none of another. -/
lemma atDepth_unique (hn : n < 4) (hm : m < 4) (hf : AtDepth r T n f) (hf' : AtDepth r T m f) :
    n = m := by
  obtain ⟨p, hp, hpf⟩ := hf
  obtain ⟨q, hq, hqf⟩ := hf'
  rw [← hp, ← hq, h.apart p q f (by omega) (by omega) hpf hqf]

lemma taken_table_iff : (.osPt, f) ∈ s.taken ↔ ∃ n < 4, AtDepth r T n f := by
  rw [h.taken]
  constructor
  · rintro (⟨p, g, hp, hg, heq⟩ | ⟨g, -, heq⟩)
    · cases heq
      exact ⟨p.length, hp, p, rfl, hg⟩
    · cases heq
  · rintro ⟨n, hn, p, rfl, hf⟩
    exact Or.inl ⟨p, f, hn, hf, rfl⟩

/-- The number in an entry is the frame its path leads to. -/
lemma frame_of_entry (hp : frameAt r T p = some f) (hlen : p.length < 4)
    (hsome : (T (p ++ [i])).isSome) : (T (p ++ [i])).map Prod.fst = some (pfn (s.mem f i)) := by
  have hword := h.words p i f hlen hp
  obtain ⟨g, hg⟩ := Option.isSome_iff_exists.mp hsome
  rw [hg] at hword ⊢
  exact congrArg some hword.2.symm

/-- The walks of the cleanup find the tables and the page of an address. -/
lemma find_spec (hsome : ∀ q, q ≠ [] → q <+: path x → (T q).isSome) :
    frameAt r T ((path x).take 1) = some (Actual.find s.mem r x).lev3frame ∧
      frameAt r T ((path x).take 2) = some (Actual.find s.mem r x).lev2frame ∧
      frameAt r T ((path x).take 3) = some (Actual.find s.mem r x).lev1frame ∧
      (T (path x)).map Prod.fst = some (Actual.find s.mem r x).level0frame := by
  have h₁ : frameAt r T [shift x 39] = some (Actual.find s.mem r x).lev3frame :=
    frame_of_entry (p := []) h frameAt_nil (by simp) (hsome _ (by simp) (List.prefix_append _ _))
  have h₂ : frameAt r T [shift x 39, shift x 30] = some (Actual.find s.mem r x).lev2frame :=
    frame_of_entry h h₁ (by simp) (hsome _ (by simp) (List.prefix_append _ _))
  have h₃ : frameAt r T [shift x 39, shift x 30, shift x 21] =
      some (Actual.find s.mem r x).lev1frame :=
    frame_of_entry h h₂ (by simp) (hsome _ (by simp) (List.prefix_append _ _))
  exact ⟨h₁, h₂, h₃, frame_of_entry h h₃ (by simp) (hsome _ (by simp) (List.prefix_refl _))⟩

/-- The tables of the three lower levels, each once, and the top table are what was handed
out for tables. -/
theorem tables_once (hT : ThreePaths T (path x) (path y) (path z) u v w fx fy fz) :
    (once (Actual.find s.mem r x).lev1frame (Actual.find s.mem r y).lev1frame
        (Actual.find s.mem r z).lev1frame ++
      (once (Actual.find s.mem r x).lev2frame (Actual.find s.mem r y).lev2frame
          (Actual.find s.mem r z).lev2frame ++
        (once (Actual.find s.mem r x).lev3frame (Actual.find s.mem r y).lev3frame
          (Actual.find s.mem r z).lev3frame ++ [r]))).Nodup ∧
    ∀ f, f ∈ once (Actual.find s.mem r x).lev1frame (Actual.find s.mem r y).lev1frame
        (Actual.find s.mem r z).lev1frame ++
      (once (Actual.find s.mem r x).lev2frame (Actual.find s.mem r y).lev2frame
          (Actual.find s.mem r z).lev2frame ++
        (once (Actual.find s.mem r x).lev3frame (Actual.find s.mem r y).lev3frame
          (Actual.find s.mem r z).lev3frame ++ [r])) ↔ (.osPt, f) ∈ s.taken := by
  have hsome : ∀ q, q ≠ [] → q <+: path x ∨ q <+: path y ∨ q <+: path z → (T q).isSome :=
    fun q hq hpre => (hT.isSome q).mpr ⟨hq, hpre⟩
  obtain ⟨hx₃, hx₂, hx₁, -⟩ := find_spec (x := x) h fun q hq hpre => hsome q hq (Or.inl hpre)
  obtain ⟨hy₃, hy₂, hy₁, -⟩ := find_spec (x := y) h fun q hq hpre =>
    hsome q hq (Or.inr (Or.inl hpre))
  obtain ⟨hz₃, hz₂, hz₁, -⟩ := find_spec (x := z) h fun q hq hpre =>
    hsome q hq (Or.inr (Or.inr hpre))
  have h₃ : ∀ f, f ∈ once _ _ _ ↔ AtDepth r T 1 f := fun f => mem_once.trans
    (atDepth_iff hT (by decide) (by simp [path]) (by simp [path]) (by simp [path]) hx₃ hy₃ hz₃).symm
  have h₂ : ∀ f, f ∈ once _ _ _ ↔ AtDepth r T 2 f := fun f => mem_once.trans
    (atDepth_iff hT (by decide) (by simp [path]) (by simp [path]) (by simp [path]) hx₂ hy₂ hz₂).symm
  have h₁ : ∀ f, f ∈ once _ _ _ ↔ AtDepth r T 3 f := fun f => mem_once.trans
    (atDepth_iff hT (by decide) (by simp [path]) (by simp [path]) (by simp [path]) hx₁ hy₁ hz₁).symm
  have h₀ : ∀ f, f ∈ [r] ↔ AtDepth r T 0 f := by
    intro f
    rw [List.mem_singleton]
    constructor
    · rintro rfl
      exact ⟨[], rfl, frameAt_nil⟩
    · rintro ⟨p, hp, hf⟩
      rw [List.length_eq_zero_iff.mp hp, frameAt_nil, Option.some.injEq] at hf
      exact hf.symm
  have hapart : ∀ n m f f', n < 4 → m < 4 →
    n ≠ m → AtDepth r T n f → AtDepth r T m f' → f ≠ f' := by
    rintro n m f f' hn hm hne hf hf' rfl
    exact hne (atDepth_unique h hn hm hf hf')
  refine ⟨List.nodup_append.mpr ⟨nodup_once, List.nodup_append.mpr ⟨nodup_once,
    List.nodup_append.mpr ⟨nodup_once, List.nodup_singleton r, fun f hf g hg => ?_⟩,
    fun f hf g hg => ?_⟩, fun f hf g hg => ?_⟩, fun f => ?_⟩
  · exact hapart 1 0 f g (by decide) (by decide) (by decide) ((h₃ f).mp hf) ((h₀ g).mp hg)
  · rcases List.mem_append.mp hg with hg | hg
    · exact hapart 2 1 f g (by decide) (by decide) (by decide) ((h₂ f).mp hf) ((h₃ g).mp hg)
    · exact hapart 2 0 f g (by decide) (by decide) (by decide) ((h₂ f).mp hf) ((h₀ g).mp hg)
  · rcases List.mem_append.mp hg with hg | hg
    · exact hapart 3 2 f g (by decide) (by decide) (by decide) ((h₁ f).mp hf) ((h₂ g).mp hg)
    · rcases List.mem_append.mp hg with hg | hg
      · exact hapart 3 1 f g (by decide) (by decide) (by decide) ((h₁ f).mp hf) ((h₃ g).mp hg)
      · exact hapart 3 0 f g (by decide) (by decide) (by decide) ((h₁ f).mp hf) ((h₀ g).mp hg)
  · rw [List.mem_append, List.mem_append, List.mem_append, h₁ f, h₂ f, h₃ f, h₀ f,
      taken_table_iff h]
    constructor
    · rintro (hf | hf | hf | hf)
      · exact ⟨3, by decide, hf⟩
      · exact ⟨2, by decide, hf⟩
      · exact ⟨1, by decide, hf⟩
      · exact ⟨0, by decide, hf⟩
    · rintro ⟨n, hn, hf⟩
      interval_cases n
      · exact Or.inr (Or.inr (Or.inr hf))
      · exact Or.inr (Or.inr (Or.inl hf))
      · exact Or.inr (Or.inl hf)
      · exact Or.inl hf

end Tables

namespace Actual

variable {lev : Fin 3 → Frame} {found : Found}

/-- The inner loop in one update. -/
lemma forget_apply (i j : Fin 3) :
    forget lev i j = if i < j ∧ lev j = lev i then 0 else lev j := by
  have hlater : ∀ i : Fin 3, (List.finRange 3).filter (i < ·) =
      if i = 0 then [1, 2] else if i = 1 then [2] else [] := by decide
  rw [forget, hlater]
  fin_cases i
  · by_cases h₁ : lev 1 = lev 0 <;> by_cases h₂ : lev 2 = lev 0 <;> fin_cases j <;>
      simp [h₁, h₂]
  · by_cases h₂ : lev 2 = lev 1 <;> fin_cases j <;> simp [h₂]
  · fin_cases j <;> simp

lemma clearEntries_freed : (clearEntries r found s).freed = s.freed := rfl

/-- The loops over one level give back each of its tables once. -/
theorem rounds_freed {g : Fin 3 → State → State} (hg : ∀ i s, (g i s).freed = s.freed)
    (h : ∀ i, lev i ≠ 0) :
    ((List.finRange 3).foldl (fun x i => freeRound (x.1, g i x.2) i) (lev, s)).2.freed =
      s.freed ++ (once (lev 0) (lev 1) (lev 2)).map (Prod.mk .osPt) := by
  have hlist : List.finRange 3 = [0, 1, 2] := rfl
  rw [hlist]
  simp only [List.foldl_cons, List.foldl_nil, freeRound, if_neg (h 0)]
  have h₀ : ∀ i, ¬lev i = 0#32 := h
  by_cases h₁ : lev 1 = lev 0 <;> by_cases h₂ : lev 2 = lev 0 <;> by_cases h₃ : lev 2 = lev 1 <;>
    simp [once, osPfnFree, forget_apply, hg, h₀, h₁, h₂, h₃]

lemma freeLevel_freed (h : ∀ i, lev i ≠ 0) : (freeLevel lev s).freed =
    s.freed ++ (once (lev 0) (lev 1) (lev 2)).map (Prod.mk .osPt) :=
  rounds_freed (g := fun _ s => s) (fun _ _ => rfl) h

/-- What the cleanup gives back: the pages, then the tables of each level. -/
theorem cleanup_freed (ctx : ExecContext)
    (h₁ : ∀ i, (find s.mem ctx.pgd (cleanupAddress ctx i)).lev1frame ≠ 0)
    (h₂ : ∀ i, (find s.mem ctx.pgd (cleanupAddress ctx i)).lev2frame ≠ 0)
    (h₃ : ∀ i, (find s.mem ctx.pgd (cleanupAddress ctx i)).lev3frame ≠ 0) :
    (cleanupContextMm ctx s).freed = s.freed ++
      ([(find s.mem ctx.pgd (codePage ctx)).level0frame,
        (find s.mem ctx.pgd (stackPage ctx)).level0frame,
        (find s.mem ctx.pgd (dataPage ctx)).level0frame].map (Prod.mk .user) ++
      (once (find s.mem ctx.pgd (codePage ctx)).lev1frame
        (find s.mem ctx.pgd (stackPage ctx)).lev1frame
        (find s.mem ctx.pgd (dataPage ctx)).lev1frame ++
      (once (find s.mem ctx.pgd (codePage ctx)).lev2frame
        (find s.mem ctx.pgd (stackPage ctx)).lev2frame
        (find s.mem ctx.pgd (dataPage ctx)).lev2frame ++
      (once (find s.mem ctx.pgd (codePage ctx)).lev3frame
        (find s.mem ctx.pgd (stackPage ctx)).lev3frame
        (find s.mem ctx.pgd (dataPage ctx)).lev3frame ++ [ctx.pgd]))).map (Prod.mk .osPt)) := by
  have hfree : ∀ region f (s : State), (osPfnFree region f s).freed = s.freed ++ [(region, f)] :=
    fun _ _ _ => rfl
  unfold cleanupContextMm
  rw [hfree, freeLevel_freed h₃, freeLevel_freed h₂,
    rounds_freed (g := fun i => clearEntries ctx.pgd (find s.mem ctx.pgd (cleanupAddress ctx i)))
      (fun _ _ => clearEntries_freed) h₁]
  have hpages : ((List.finRange 3).foldl (fun t i =>
      osPfnFree .user (find s.mem ctx.pgd (cleanupAddress ctx i)).level0frame t) s).freed =
      s.freed ++ [(find s.mem ctx.pgd (codePage ctx)).level0frame,
        (find s.mem ctx.pgd (stackPage ctx)).level0frame,
        (find s.mem ctx.pgd (dataPage ctx)).level0frame].map (Prod.mk .user) := by
    have hlist : List.finRange 3 = [0, 1, 2] := rfl
    rw [hlist, List.foldl_cons, List.foldl_cons, List.foldl_cons, List.foldl_nil, hfree, hfree,
      hfree, List.append_assoc, List.append_assoc]
    rfl
  rw [hpages]
  simp only [List.map_append, List.append_assoc]
  rfl

/-- `cleanup_context_mm` gives back what `prepare_context_mm` was handed out, and the data page. -/
theorem cleanup_undoes_prepare (frames : ℕ → Frame) (hf : Supply frames) (ctx : ExecContext)
    (hctx : Apart ctx) (harg : ctx.argPfn.toNat < 2 ^ 20)
    (hother : ∀ i, i < 12 → frames i ≠ ctx.argPfn) (hzero : ∀ i, i < 12 → frames i ≠ 0)
    (mem : Memory) :
    let x := prepareContextMm frames ctx ⟨mem, [], []⟩
    (cleanupContextMm x.1 x.2).freed.Nodup ∧
      (cleanupContextMm x.1 x.2).freed.Perm (x.2.taken ++ [(.user, ctx.argPfn)]) := by
  obtain ⟨T, code, stack, hbuilt, hlen, hpaths⟩ := prepare_spec mem hf hctx harg
  have hx : prepareContextMm frames ctx ⟨mem, [], []⟩ = ({ ctx with pgd := frames 0 },
    (prepareContextMm frames ctx ⟨mem, [], []⟩).2) := rfl
  intro x
  have hpgd : x.1.pgd = frames 0 := rfl
  have hsame : x.1.mms = ctx.mms := rfl
  have hsome : ∀ i : Fin 3, ∀ q, q ≠ [] → q <+: path (cleanupAddress x.1 i) → (T q).isSome := by
    intro i q hq hpre
    refine (hpaths.isSome q).mpr ⟨hq, ?_⟩
    fin_cases i
    · exact Or.inl hpre
    · exact Or.inr (Or.inl hpre)
    · exact Or.inr (Or.inr hpre)
  have htables := tables_once hbuilt hpaths
  have hpos : ∀ p f, p.length < 4 → frameAt (frames 0) T p = some f → f ≠ 0 := fun p f hp hpf =>
    hbuilt.taken_ne hlen hzero ((hbuilt.taken (.osPt, f)).mpr (Or.inl ⟨p, f, hp, hpf, rfl⟩))
  have hfind := fun i => find_spec (x := cleanupAddress x.1 i) hbuilt (hsome i)
  have hfreed := cleanup_freed (s := x.2) x.1
    (fun i => hpos _ _ (by simp [path]) (hfind i).2.2.1)
    (fun i => hpos _ _ (by simp [path]) (hfind i).2.1)
    (fun i => hpos _ _ (by simp [path]) (hfind i).1)
  have hcode := Option.some.inj ((hfind 0).2.2.2.symm.trans hpaths.first)
  have hstack := Option.some.inj ((hfind 1).2.2.2.symm.trans hpaths.second)
  have hdata := Option.some.inj ((hfind 2).2.2.2.symm.trans hpaths.third)
  change (find x.2.mem x.1.pgd (codePage ctx)).level0frame = code at hcode
  change (find x.2.mem x.1.pgd (stackPage ctx)).level0frame = stack at hstack
  change (find x.2.mem x.1.pgd (dataPage ctx)).level0frame = ctx.argPfn at hdata
  have hnil : x.2.freed = [] := hbuilt.freed
  have hpage : ∀ f, (.user, f) ∈ x.2.taken ↔ f ∈ [stack, code] := fun f => hbuilt.taken_page_iff
  have hnodup : [code, stack, ctx.argPfn].Nodup := by
    have hne : code ≠ stack := by
      rintro rfl
      exact (List.nodup_cons.mp hbuilt.nodup).1 (List.mem_singleton_self code)
    have hne₁ := hbuilt.taken_ne hlen hother ((hpage code).mpr (by simp))
    have hne₂ := hbuilt.taken_ne hlen hother ((hpage stack).mpr (by simp))
    simp [hne, hne₁, hne₂]
  change (cleanupContextMm x.1 x.2).freed = x.2.freed ++ ([(find x.2.mem x.1.pgd
    (codePage ctx)).level0frame, (find x.2.mem x.1.pgd (stackPage ctx)).level0frame,
    (find x.2.mem x.1.pgd (dataPage ctx)).level0frame].map _ ++ List.map _ _) at hfreed
  rw [hcode, hstack, hdata, hnil, List.nil_append] at hfreed
  rw [hfreed]
  have htaken : (x.2.taken ++ [(Region.user, ctx.argPfn)]).Nodup := by
    refine List.nodup_append.mpr ⟨?_, List.nodup_singleton _, fun y hy z hz heq => ?_⟩
    · exact (hbuilt.nodup_taken hf hlen).of_map
    · rw [List.mem_singleton.mp hz] at heq
      exact hbuilt.taken_ne hlen hother hy (congrArg Prod.snd heq)
  refine ⟨nodup_freed hnodup htables.1, (List.perm_ext_iff_of_nodup (nodup_freed hnodup htables.1)
    htaken).mpr fun y => ?_⟩
  obtain ⟨region, f⟩ := y
  rw [List.mem_append, List.mem_append, List.mem_singleton]
  cases region with
  | osDs =>
    refine iff_of_false (by simp) ?_
    rintro (htaken | heq)
    · rcases (hbuilt.taken _).mp htaken with ⟨_, _, -, -, heq⟩ | ⟨_, -, heq⟩ <;> cases heq
    · cases heq
  | osPt =>
    rw [← htables.2 f]
    simp
  | user =>
    rw [hpage f]
    simp only [List.mem_map, Prod.mk.injEq, reduceCtorEq, false_and, and_false, exists_false,
      true_and, exists_eq_right, or_false, List.mem_cons, List.not_mem_nil]
    rw [or_assoc]
    exact or_left_comm

theorem cleanup_undoes_prepare_typical :
    let x := prepareContextMm inOrder typical ⟨fun _ _ => 1, [], []⟩
    (cleanupContextMm x.1 x.2).freed.Nodup ∧
      (cleanupContextMm x.1 x.2).freed.Perm (x.2.taken ++ [(.user, typical.argPfn)]) :=
  cleanup_undoes_prepare inOrder inOrder_supply typical typical_apart (by decide)
    (fun _ hi => inOrder_ne_argPfn hi) (fun _ hi => inOrder_ne_zero hi) _

end Actual

namespace ContextMm

variable {size : ℕ} {array : List Frame} {mem : Memory} {vaddr : Word}

lemma entryPfn_eq (w : Word) : entryPfn w = pfn w := by
  rw [entryPfn, pfn, ← BitVec.toNat_inj, BitVec.toNat_setWidth, BitVec.toNat_setWidth,
    BitVec.toNat_and]
  change (_ &&& (2 ^ 32 - 1)) % 2 ^ 32 = _
  rw [Nat.and_two_pow_sub_one_eq_mod, Nat.mod_mod]

/-- The frames on the way to a page are those that the other program finds. -/
lemma pfns_eq : pfns mem r vaddr = ![(Actual.find mem r vaddr).lev3frame,
    (Actual.find mem r vaddr).lev2frame, (Actual.find mem r vaddr).lev1frame,
    (Actual.find mem r vaddr).level0frame] := by
  simp only [pfns, entryPfn_eq, indexL4_eq, indexL3_eq, indexL2_eq, indexL1_eq]
  rfl

/-- Stores one after the other stay inside the array when all of them fit. -/
lemma pushes_eq {l : List Frame} (hroom : array.length ≤ size) : l.foldlM (push size) array =
    if array.length + l.length ≤ size then some (array ++ l) else none := by
  induction l generalizing array with
  | nil => rw [List.length_nil, Nat.add_zero, if_pos hroom, List.append_nil, List.foldlM_nil]; rfl
  | cons f l ih =>
    rw [List.foldlM_cons, push, List.length_cons]
    by_cases hnext : array.length < size
    · rw [if_pos hnext]
      change l.foldlM (push size) (array ++ [f]) = _
      rw [ih (by rw [List.length_append, List.length_singleton]; omega), List.length_append,
        List.length_singleton, List.append_assoc, Nat.add_assoc, Nat.add_comm 1]
      rfl
    · rw [if_neg hnext, if_neg (by omega)]
      rfl

/-- One round of the check for duplicates stores each frame once. -/
lemma gather_eq : gather size a b c array = (once a b c).foldlM (push size) array := by
  unfold gather once
  by_cases hba : b = a
  · by_cases hca : c = a
    · simp [hba, hca]
    · simp [hba, hca]
  · have hab : a ≠ b := Ne.symm hba
    by_cases hdup : c = a ∨ c = b
    · have hskip : ¬(c ≠ b ∧ c ≠ a) := fun h => hdup.elim h.2 h.1
      simp [hba, hab, hdup, hskip]
    · have hstore : c ≠ b ∧ c ≠ a := (not_or.mp hdup).symm
      simp [hba, hab, hstore]

variable {ctx : ExecContext}

/-- What the arrays hold after the check for duplicates; the top table comes last. -/
theorem cleanup_eq : cleanupContextMm ctx s =
    let code := Actual.find s.mem ctx.pgd (codePage ctx)
    let stack := Actual.find s.mem ctx.pgd (stackPage ctx)
    let data := Actual.find s.mem ctx.pgd (dataPage ctx)
    let tables := once code.lev3frame stack.lev3frame data.lev3frame ++
      (once code.lev2frame stack.lev2frame data.lev2frame ++
        (once code.lev1frame stack.lev1frame data.lev1frame ++ [ctx.pgd]))
    let users := once code.level0frame stack.level0frame data.level0frame
    if tables.length ≤ maxN then
      some (tables.foldl (fun s frame => osPfnFree .osPt frame s)
        (users.foldl (fun s frame => osPfnFree .user frame s) s))
    else none := by
  extract_lets code stack data tables users
  have hos : (do
      let array ← [0, 1, 2].foldlM (fun array i => gather maxN
        (pfns s.mem ctx.pgd (vaddrCode ctx) i) (pfns s.mem ctx.pgd (vaddrStack ctx) i)
        (pfns s.mem ctx.pgd (vaddrData ctx) i) array) []
      push maxN array ctx.pgd) = tables.foldlM (push maxN) [] := by
    simp only [tables, List.foldlM_append, List.foldlM_cons, List.foldlM_nil, gather_eq, pfns_eq,
      bind_assoc, bind_pure]
    rfl
  have husers : gather 3 (pfns s.mem ctx.pgd (vaddrCode ctx) 3)
    (pfns s.mem ctx.pgd (vaddrStack ctx) 3)
      (pfns s.mem ctx.pgd (vaddrData ctx) 3) [] = some users := by
    rw [gather_eq, pushes_eq (by simp), pfns_eq, pfns_eq, pfns_eq]
    apply if_pos
    rw [List.length_nil, Nat.zero_add]
    exact length_once_le
  have hdo : cleanupContextMm ctx s = (do
      let array ← tables.foldlM (push maxN) []
      some (array.foldl (fun s frame => osPfnFree .osPt frame s)
        (users.foldl (fun s frame => osPfnFree .user frame s) s))) := by
    rw [← hos, bind_assoc]
    unfold cleanupContextMm
    simp only [husers]
    rfl
  rw [hdo, pushes_eq (by simp), List.length_nil, Nat.zero_add, List.nil_append]
  split_ifs <;> rfl

lemma foldl_free_freed {region : Region} {l : List Frame} :
    (l.foldl (fun s frame => osPfnFree region frame s) s).freed =
      s.freed ++ l.map (Prod.mk region) := by
  induction l generalizing s with
  | nil => exact (List.append_nil _).symm
  | cons f l ih =>
    rw [List.foldl_cons, ih, List.map_cons]
    exact List.append_assoc ..

/-- Every table and page of a process is given back once, and nothing else. -/
structure FreesAll (ctx : ExecContext) (s s' : State) : Prop where
  once : s'.freed.Nodup
  tables : ∀ f, (.osPt, f) ∈ s'.freed ↔ Reached (links 1 s.mem) ctx.pgd 3 f
  pages : ∀ f, (.user, f) ∈ s'.freed ↔ translate 1 s.mem ctx.pgd (codePage ctx) = some f ∨
    translate 1 s.mem ctx.pgd (stackPage ctx) = some f ∨
    translate 1 s.mem ctx.pgd (dataPage ctx) = some f
  others : ∀ f, (.osDs, f) ∉ s'.freed

/-- Two of the three pages lie behind one entry of the top table. -/
def SharedTop (ctx : ExecContext) : Prop :=
  shift (codePage ctx) 39 = shift (stackPage ctx) 39 ∨
    shift (codePage ctx) 39 = shift (dataPage ctx) 39 ∨
    shift (stackPage ctx) 39 = shift (dataPage ctx) 39

/-- The number of tables, by the entries of the top table. -/
lemma tables_length_iff {x y z : Word} {u v w : List Index → Bool} {fx fy fz : Frame}
    (h : Built frames s r T base pages)
    (hT : ThreePaths T (path x) (path y) (path z) u v w fx fy fz) :
    (once (Actual.find s.mem r x).lev3frame (Actual.find s.mem r y).lev3frame
        (Actual.find s.mem r z).lev3frame ++
      (once (Actual.find s.mem r x).lev2frame (Actual.find s.mem r y).lev2frame
          (Actual.find s.mem r z).lev2frame ++
        (once (Actual.find s.mem r x).lev1frame (Actual.find s.mem r y).lev1frame
          (Actual.find s.mem r z).lev1frame ++ [r]))).length ≤ maxN ↔
      shift x 39 = shift y 39 ∨ shift x 39 = shift z 39 ∨ shift y 39 = shift z 39 := by
  have hsome : ∀ q, q ≠ [] → q <+: path x ∨ q <+: path y ∨ q <+: path z → (T q).isSome :=
    fun q hq hpre => (hT.isSome q).mpr ⟨hq, hpre⟩
  obtain ⟨hx₃, hx₂, hx₁, -⟩ := find_spec (x := x) h fun q hq hpre => hsome q hq (Or.inl hpre)
  obtain ⟨hy₃, hy₂, hy₁, -⟩ := find_spec (x := y) h fun q hq hpre =>
    hsome q hq (Or.inr (Or.inl hpre))
  obtain ⟨hz₃, hz₂, hz₁, -⟩ := find_spec (x := z) h fun q hq hpre =>
    hsome q hq (Or.inr (Or.inr hpre))
  have htop : ∀ {a b : Word} {f g}, shift a 39 = shift b 39 →
      frameAt r T ((path a).take 1) = some f → frameAt r T ((path b).take 1) = some g → f = g := by
    intro a b f g hab hf hg
    have hpath : (path a).take 1 = (path b).take 1 := congrArg (fun i => [i]) hab
    exact Option.some.inj ((hpath ▸ hf).symm.trans hg)
  have hbelow : ∀ {a b : Word} {f g} {n : ℕ}, n < 3 → shift a 39 ≠ shift b 39 →
      frameAt r T ((path a).take (n + 1)) = some f →
      frameAt r T ((path b).take (n + 1)) = some g → f ≠ g := by
    rintro a b f g n hn hab hf hg rfl
    have hpath := h.apart _ _ f (by simp [path]; omega) (by simp [path]; omega) hf hg
    exact hab (List.head_eq_of_cons_eq hpath)
  rw [List.length_append, List.length_append, List.length_append, List.length_singleton, maxN]
  have h₁ := length_once_le (a := (Actual.find s.mem r x).lev1frame)
    (b := (Actual.find s.mem r y).lev1frame) (c := (Actual.find s.mem r z).lev1frame)
  have h₂ := length_once_le (a := (Actual.find s.mem r x).lev2frame)
    (b := (Actual.find s.mem r y).lev2frame) (c := (Actual.find s.mem r z).lev2frame)
  constructor
  · intro hroom
    by_contra hnone
    push Not at hnone
    obtain ⟨hxy, hxz, hyz⟩ := hnone
    rw [length_once_of_ne (hbelow (by decide) hxy hx₃ hy₃) (hbelow (by decide) hxz hx₃ hz₃)
        (hbelow (by decide) hyz hy₃ hz₃),
      length_once_of_ne (hbelow (by decide) hxy hx₂ hy₂) (hbelow (by decide) hxz hx₂ hz₂)
        (hbelow (by decide) hyz hy₂ hz₂),
      length_once_of_ne (hbelow (by decide) hxy hx₁ hy₁) (hbelow (by decide) hxz hx₁ hz₁)
        (hbelow (by decide) hyz hy₁ hz₁)] at hroom
    omega
  · intro hshared
    have h₃ := length_once_of_eq (a := (Actual.find s.mem r x).lev3frame)
      (b := (Actual.find s.mem r y).lev3frame) (c := (Actual.find s.mem r z).lev3frame)
      (hshared.imp (fun heq => htop heq hx₃ hy₃)
        (Or.imp (fun heq => htop heq hx₃ hz₃) fun heq => htop heq hy₃ hz₃))
    omega

/-- A cleanup that stays inside its arrays gives back the tables and pages of the process. -/
theorem freesAll_of_built (ctx : ExecContext) {w₁ w₂ w₃ : List Index → Bool}
    {f₁ f₂ f₃ : Frame} {s' : State}
    (h : Built frames s ctx.pgd T base pages)
    (hT : ThreePaths T (path (codePage ctx)) (path (stackPage ctx)) (path (dataPage ctx))
      w₁ w₂ w₃ f₁ f₂ f₃) (hclean : cleanupContextMm ctx s = some s') : FreesAll ctx s s' := by
  rw [cleanup_eq] at hclean
  extract_lets code stack data tables users at hclean
  split_ifs at hclean
  have hfreed : s'.freed = users.map (Prod.mk .user) ++ tables.map (Prod.mk .osPt) := by
    rw [← Option.some.inj hclean, foldl_free_freed, foldl_free_freed, h.freed, List.nil_append]
  have hsome : ∀ q, q ≠ [] → q <+: path (codePage ctx) ∨ q <+: path (stackPage ctx) ∨
      q <+: path (dataPage ctx) → (T q).isSome := fun q hq hpre => (hT.isSome q).mpr ⟨hq, hpre⟩
  obtain ⟨hnodup, hmem⟩ := tables_once h hT
  have hperm : tables.Perm (once code.lev1frame stack.lev1frame data.lev1frame ++
      (once code.lev2frame stack.lev2frame data.lev2frame ++
        (once code.lev3frame stack.lev3frame data.lev3frame ++ [ctx.pgd]))) := by
    refine List.perm_iff_count.mpr fun f => ?_
    simp only [tables, List.count_append]
    omega
  have hpage : ∀ a, (∀ q, q ≠ [] → q <+: path a → (T q).isSome) → ∀ f,
      translate 1 s.mem ctx.pgd a = some f ↔ f = (Actual.find s.mem ctx.pgd a).level0frame := by
    intro a ha f
    rw [translate_read h (Or.inl (ha _ (by simp [path]) (List.prefix_refl _))) (Or.inl rfl),
      (find_spec h ha).2.2.2, Option.some.injEq, eq_comm]
  refine ⟨?_, fun f => ?_, fun f => ?_, fun f => ?_⟩
  · rw [hfreed]
    exact nodup_freed nodup_once (hperm.nodup_iff.mpr hnodup)
  · have htables : (.osPt, f) ∈ s'.freed ↔ f ∈ tables := by
      rw [hfreed]
      simp
    rw [htables, hperm.mem_iff, hmem f, taken_table_iff h]
    constructor
    · rintro ⟨n, hn, p, rfl, hp⟩
      exact ⟨p, by omega, (h.follow_eq_some (by decide) (by decide) (by omega)
        (Or.inr (h.inner p hn))).mpr ⟨hp, open_one⟩⟩
    · rintro ⟨p, hp, hfollow⟩
      exact ⟨p.length, by omega, p, rfl, ((h.follow_eq_some (by decide) (by decide) (by omega)
        (Or.inr (h.inner p (by omega)))).mp hfollow).1⟩
  · have husers : (.user, f) ∈ s'.freed ↔ f ∈ users := by
      rw [hfreed]
      simp
    rw [husers, mem_once, hpage _ fun q hq hpre => hsome q hq (Or.inl hpre),
      hpage _ fun q hq hpre => hsome q hq (Or.inr (Or.inl hpre)),
      hpage _ fun q hq hpre => hsome q hq (Or.inr (Or.inr hpre))]
  · rw [hfreed]
    simp

/-- The arrays are large enough when two of the three pages share an entry of the top table. -/
lemma cleanup_isSome_iff (mem : Memory) (hf : Supply frames) (hctx : Apart ctx) :
    (cleanupContextMm (prepareContextMm frames ctx ⟨mem, [], []⟩).1
      (prepareContextMm frames ctx ⟨mem, [], []⟩).2).isSome ↔ SharedTop ctx := by
  obtain ⟨T, w, code, stack, hbuilt, -, hpaths, -⟩ := prepare_spec mem hf hctx
  refine Iff.trans ?_ (tables_length_iff hbuilt hpaths)
  rw [cleanup_eq]
  extract_lets code stack data tables users
  change _ ↔ tables.length ≤ maxN
  split_ifs with hroom
  · exact iff_of_true rfl hroom
  · exact iff_of_false nofun hroom

/-- The cleanup gives back every table and page once exactly when two of the three pages share
an entry of the top table. -/
theorem cleanup_frees_iff (frames : ℕ → Frame) (hf : Supply frames) (ctx : ExecContext)
    (hctx : Apart ctx) (mem : Memory) :
    let x := prepareContextMm frames ctx ⟨mem, [], []⟩
    (∃ s', cleanupContextMm x.1 x.2 = some s' ∧ FreesAll x.1 x.2 s') ↔ SharedTop ctx := by
  intro x
  rw [← cleanup_isSome_iff mem hf hctx, Option.isSome_iff_exists]
  refine exists_congr fun s' => and_iff_left_of_imp fun hclean => ?_
  obtain ⟨T, w, code, stack, hbuilt, -, hpaths, -⟩ := prepare_spec mem hf hctx
  exact freesAll_of_built x.1 hbuilt hpaths hclean

theorem cleanup_frees_iff_typical :
    let x := prepareContextMm inOrder typical ⟨fun _ _ => 1, [], []⟩
    ∃ s', cleanupContextMm x.1 x.2 = some s' ∧ FreesAll x.1 x.2 s' :=
  (cleanup_frees_iff inOrder inOrder_supply typical typical_apart _).mpr (Or.inl (by decide))

/-- A process with its pages behind three entries of the top table. -/
def spread : ExecContext where
  pgd := 0
  argPfn := 64
  mms
    | .code => ⟨0, 0x1000, 5⟩
    | .rodata => ⟨0x140000000, 0x140001000, 1⟩
    | .data => ⟨0x8000000000, 0x8000001000, 3⟩
    | .stack => ⟨0x10000000000, 0x10000001000, 3⟩

lemma spread_apart : Apart spread := ⟨by decide, by decide, by decide⟩

/-- Ten tables do not fit in the array. -/
theorem tenth_table_outside : ¬∀ (frames : ℕ → Frame) (_ : Supply frames) (ctx : ExecContext)
    (_ : Apart ctx) (_ : ctx.argPfn.toNat < 2 ^ 20) (_ : ∀ i, i < 12 → frames i ≠ ctx.argPfn)
    (mem : Memory), let x := prepareContextMm frames ctx ⟨mem, [], []⟩
    ∃ s', cleanupContextMm x.1 x.2 = some s' ∧ FreesAll x.1 x.2 s' := by
  intro hclaim
  obtain ⟨s', hclean, -⟩ := hclaim inOrder inOrder_supply spread spread_apart (by decide)
    (fun _ hi => inOrder_ne_argPfn hi) fun _ _ => 0
  have hshared := (cleanup_isSome_iff _ inOrder_supply spread_apart).mp
    (Option.isSome_iff_exists.mpr ⟨s', hclean⟩)
  revert hshared
  unfold SharedTop
  decide

end ContextMm

end OsAssignments.AddressSpace
