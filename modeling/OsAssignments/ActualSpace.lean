import OsAssignments.ThreePages

/-!
# The address space built by `actual.c`

Each round of the loop enters the path of one page, one table after the other, with
the write bit of its segment at every level.
-/
namespace OsAssignments.AddressSpace.Actual

open Paging (Word Frame Index Memory Present pfn shift path entryFor)
open RadixTree PathTables

variable {frames : ℕ → Frame} {s s' : State} {r frame f g : Frame} {p q : List Index} {i j : Index}
variable {T : PathTable Frame Index} {base : List Index → Word} {pages : List Frame}
variable {w : Word} {code : BitVec 32}

section Levels

lemma levelVal_eq : levelVal code f = entryFor (bits (mayWrite code)) f := by
  unfold levelVal mayWrite bits
  simp [entryFor]

lemma levelVal_and_seven : levelVal code f &&& 7 = bits (mayWrite code) := by
  rw [levelVal_eq, entryFor_and_seven (bits_toNat_lt _), bits_and_seven]

lemma pfn_levelVal (hf : f.toNat < 2 ^ 20) : pfn (levelVal code f) = f := by
  rw [levelVal_eq, Paging.pfn_entryFor (bits_toNat_lt _) hf]

lemma clean_spec : (∀ g, g ≠ f → (clean f s).mem g = s.mem g) ∧
    (∀ j, (clean f s).mem f j = 0) ∧ (clean f s).taken = s.taken ∧ (clean f s).freed = s.freed := by
  unfold clean
  exact zeroWords_spec

theorem level_spec (code : BitVec 32) (h : Built frames s r T base pages) (hf : Supply frames)
    (hn : s.taken.length < 12) (hp : frameAt r T p = some frame) (hlen : p.length < 3) :
    Stepped frames s (level frames code i frame s).2 r T base pages (p ++ [i])
      (level frames code i frame s).1 (mayWrite code) := by
  have hlen' : (p ++ [i]).length = p.length + 1 := by rw [List.length_append, List.length_singleton]
  have hpres := h.present_iff (i := i) hp (by omega) (h.inner _ (by omega))
  have hword := h.words p i frame (by omega) hp
  cases hT : T (p ++ [i]) with
  | some x =>
    obtain ⟨f, c⟩ := x
    rw [hT] at hpres hword
    obtain ⟨hbits, hpfn⟩ := hword
    have hentry : Present (s.mem frame i) := hpres.mpr rfl
    by_cases hwrite : code &&& 2 ≠ 0
    · have hmore : Present (s.mem frame i ||| 7) := Paging.present_or.mpr (Or.inl hentry)
      simp only [level, if_pos hentry, if_pos hwrite, store_mem_self, if_pos hmore, hpfn]
      refine ⟨h.set hp (by omega) (Or.inr (by rw [hT]; rfl)) ?_ ?_, Nat.le_succ _⟩
      · rw [mayWrite, decide_eq_true hwrite, Bool.or_true, BitVec.and_or_distrib_right, hbits]
        cases c <;> decide
      · rw [Paging.pfn_or (by decide), hpfn]
    · simp only [level, if_pos hentry, if_neg hwrite, hpfn]
      refine ⟨?_, Nat.le_succ _⟩
      rw [mayWrite, decide_eq_false hwrite, mark_unflagged hT]
      exact h
  | none =>
    rw [hT] at hpres
    have hentry : ¬Present (s.mem frame i) := fun hsome => nomatch hpres.mp hsome
    have hne : frame ≠ frames s.taken.length := h.table_ne_next hf hn (by omega) hp
    have hfst : (osPfnAlloc frames .osPt s).1 = frames s.taken.length := rfl
    obtain ⟨hmem, hclear, htaken, hfreed⟩ :=
      clean_spec (f := frames s.taken.length) (s := (osPfnAlloc frames .osPt s).2)
    simp only [level, if_neg hentry, hfst]
    generalize clean (frames s.taken.length) (osPfnAlloc frames .osPt s).2 = s' at *
    have hstill : ¬Present (s'.mem frame i) := by
      rw [hmem frame hne]
      exact hentry
    rw [if_neg hstill]
    refine ⟨h.give hf hn hp hlen hT hmem htaken hfreed (fun j => ?_) (Or.inr hclear)
      (fun _ _ _ => rfl) (h.inner [] (by simp))
      levelVal_and_seven (pfn_levelVal (hf.below _ hn)), ?_⟩
    · rw [h.bare _ j hT, hclear j]
    · change s'.taken.length ≤ _
      rw [htaken, osPfnAlloc_length]

end Levels

section Rounds

variable {ctx : ExecContext} {k : ℕ}

/-- One round of the loop enters one path, with the flag of its segment all the way. -/
theorem prepareRound_spec (ctx : ExecContext) (k : ℕ) (h : Built frames s r T base pages)
    (hf : Supply frames) (hn : s.taken.length + 3 ≤ 12) (hn' : k ≠ 2 → s.taken.length + 4 ≤ 12)
    (harg : ctx.argPfn.toNat < 2 ^ 20)
    (hnone : T (path (startAddress ctx k)) = none) (hbase : base (path (startAddress ctx k)) = 0) :
    ∃ T' f pages', Entered T T' (path (startAddress ctx k))
      (fun _ => mayWrite (accessCode ctx k)) f ∧
      Built frames (prepareRound frames ctx r s k) r T' base pages' ∧
      (prepareRound frames ctx r s k).taken.length ≤ s.taken.length + 4 ∧
      (k = 2 → f = ctx.argPfn ∧ pages' = pages ∧
        (prepareRound frames ctx r s k).taken.length ≤ s.taken.length + 3) ∧
      (k ≠ 2 → pages' = pages ++ [f]) := by
  unfold prepareRound
  generalize startAddress ctx k = address at *
  generalize accessCode ctx k = code at *
  have h₁ := level_spec (i := shift address 39) (p := []) code h hf (by omega) frameAt_nil
    (by simp)
  dsimp only
  generalize level frames code (shift address 39) r s = x₁ at h₁ ⊢
  have h₂ := level_spec (i := shift address 30) code h₁.built hf
    (by have := h₁.length; omega) (frameAt_mark_self (by simp)) (by simp)
  generalize level frames code (shift address 30) x₁.1 x₁.2 = x₂ at h₂ ⊢
  have h₃ := level_spec (i := shift address 21) code h₂.built hf
    (by have := h₁.length; have := h₂.length; omega) (frameAt_mark_self (by simp)) (by simp)
  generalize level frames code (shift address 21) x₂.1 x₂.2 = x₃ at h₃ ⊢
  obtain ⟨T', hwalk⟩ := walked_of_stepped (v := fun _ => mayWrite code) h₁ h₂ h₃ rfl rfl rfl
  have hlen := hwalk.length
  have hentry : ¬Present (x₃.2.mem x₃.1 (shift address 12)) := by
    rw [hwalk.built.present_iff hwalk.here (by simp) hbase]
    change ¬(T' (path address)).isSome
    rw [hwalk.same _ rfl, hnone]
    nofun
  rw [if_neg hentry]
  by_cases hk : k = 2
  · rw [if_neg (not_not.mpr hk)]
    refine ⟨_, _, _, hwalk.entered _ _, hwalk.enter hnone levelVal_and_seven, hlen.trans (by omega),
      fun _ => ⟨pfn_levelVal harg, rfl, hlen⟩, fun hne => absurd hk hne⟩
  · have := hn' hk
    rw [if_pos hk]
    refine ⟨_, _, _, hwalk.entered _ _, hwalk.enterNew hf (by omega) hnone (fun _ _ => rfl) rfl rfl
      levelVal_and_seven, ?_, fun heq => absurd heq hk, fun _ => ?_⟩
    · change (osPfnAlloc frames .user x₃.2).2.taken.length ≤ _
      rw [osPfnAlloc_length]
      omega
    · rw [osPfnAlloc, pfn_levelVal (hf.below _ (by omega))]

/-- The loop enters the paths of stack, code and data. -/
theorem prepare_spec (mem : Memory) (hf : Supply frames) (hctx : Apart ctx)
    (harg : ctx.argPfn.toNat < 2 ^ 20) :
    ∃ T code stack, Built frames (prepareContextMm frames ctx ⟨mem, [], []⟩).2 (frames 0) T
        (fun _ => 0) [stack, code] ∧
      (prepareContextMm frames ctx ⟨mem, [], []⟩).2.taken.length ≤ 12 ∧
      ThreePaths T (path (codePage ctx)) (path (stackPage ctx)) (path (dataPage ctx))
        (fun _ => mayWrite (ctx.mms .code).accessFlags)
        (fun _ => mayWrite (ctx.mms .stack).accessFlags)
        (fun _ => mayWrite (ctx.mms .data).accessFlags) code stack ctx.argPfn := by
  obtain ⟨hcodeStack, hcodeData, hstackData⟩ := hctx.paths_ne
  have hrounds : (prepareContextMm frames ctx ⟨mem, [], []⟩).2 =
      prepareRound frames { ctx with pgd := frames 0 } (frames 0)
        (prepareRound frames { ctx with pgd := frames 0 } (frames 0)
          (prepareRound frames { ctx with pgd := frames 0 } (frames 0)
            (clean (frames 0) (osPfnAlloc frames .osPt ⟨mem, [], []⟩).2) 0) 1) 2 := rfl
  rw [hrounds]
  obtain ⟨-, hclear, htaken, hfreed⟩ :=
    clean_spec (f := frames 0) (s := (osPfnAlloc frames .osPt ⟨mem, [], []⟩).2)
  generalize clean (frames 0) (osPfnAlloc frames .osPt ⟨mem, [], []⟩).2 = s₀ at *
  have hlen₀ : s₀.taken.length = 1 := by
    rw [htaken]
    rfl
  obtain ⟨T₁, stack, U₁, he₁, hb₁, hl₁, -, hu₁⟩ := prepareRound_spec
    { ctx with pgd := frames 0 } 0 (built_nil hclear htaken hfreed) hf (by omega)
    (fun _ => by omega) harg rfl rfl
  generalize prepareRound frames { ctx with pgd := frames 0 } (frames 0) s₀ 0 = s₁ at *
  obtain ⟨T₂, code, U₂, he₂, hb₂, hl₂, -, hu₂⟩ := prepareRound_spec
    { ctx with pgd := frames 0 } 1 hb₁ hf (by omega) (fun _ => by omega) harg
    (he₁.kept (path (codePage ctx)) (not_isPrefix_of_length rfl hcodeStack)) rfl
  generalize prepareRound frames { ctx with pgd := frames 0 } (frames 0) s₁ 1 = s₂ at *
  have hnone : T₂ (path (dataPage ctx)) = none :=
    (he₂.kept (path (dataPage ctx)) (not_isPrefix_of_length rfl hcodeData.symm)).trans
      (he₁.kept (path (dataPage ctx)) (not_isPrefix_of_length rfl hstackData.symm))
  obtain ⟨T₃, data, U₃, he₃, hb₃, -, hu₃, -⟩ := prepareRound_spec
    { ctx with pgd := frames 0 } 2 hb₂ hf (by omega) (fun hne => absurd rfl hne) harg
    hnone rfl
  obtain ⟨rfl, rfl, hl₃⟩ := hu₃ rfl
  have hpages : U₃ = [stack, code] := by rw [hu₂ (by decide), hu₁ (by decide)]; rfl
  rw [hpages] at hb₃
  exact ⟨T₃, code, stack, hb₃, by omega,
    (threePaths_of_entered rfl rfl rfl hcodeStack.symm hstackData hcodeData he₁ he₂ he₃).swap⟩

/-- `prepare_context_mm` builds the address space that is intended, and its tables are a tree. -/
theorem prepare_builds_intended (frames : ℕ → Frame) (hf : Supply frames) (ctx : ExecContext)
    (hctx : Apart ctx) (harg : ctx.argPfn.toNat < 2 ^ 20)
    (hother : ∀ i, i < 12 → frames i ≠ ctx.argPfn) (mem : Memory) :
    Intended ctx (prepareContextMm frames ctx ⟨mem, [], []⟩).2
        (prepareContextMm frames ctx ⟨mem, [], []⟩).1.pgd ∧
      Unshared (prepareContextMm frames ctx ⟨mem, [], []⟩).2.mem
        (prepareContextMm frames ctx ⟨mem, [], []⟩).1.pgd := by
  obtain ⟨T, code, stack, hbuilt, hlen, hpaths⟩ := prepare_spec mem hf hctx harg
  have hpgd : (prepareContextMm frames ctx ⟨mem, [], []⟩).1.pgd = frames 0 := rfl
  rw [hpgd]
  generalize (prepareContextMm frames ctx ⟨mem, [], []⟩).2 = s at *
  have hne : code ≠ stack := by
    rintro rfl
    exact (List.nodup_cons.mp hbuilt.nodup).1 (List.mem_singleton_self code)
  have hpage : ∀ f ∈ [stack, code], f ≠ ctx.argPfn := fun f hmem =>
    hbuilt.taken_ne hlen hother (hbuilt.taken_page_iff.mpr hmem)
  refine ⟨(intended_iff hbuilt hpaths hctx (by simp) (by simp) hne (fun _ => rfl)
    fun _ => rfl).mpr ⟨fun a ha => ?_, rfl, hpaths.rotate.rotate.flagged_first rfl rfl rfl
      (fun heq => hctx.codeData (path_inj.mp heq.symm))
      (fun heq => hctx.stackData (path_inj.mp heq.symm)) fun _ => rfl⟩,
    unshared_of_built hbuilt hf hlen (fun q f hq hqf k hk hreply => ?_)
      fun p q f hp hq hpf hqf => ?_⟩
  · rw [translate_read hbuilt (Or.inr rfl) (Or.inl rfl), ha, Option.map_none]
  · rcases hpaths.page_cases rfl rfl rfl hq hqf with ⟨-, rfl⟩ | ⟨-, rfl⟩ | ⟨-, rfl⟩
    · exact List.mem_cons_of_mem _ (List.mem_singleton_self _)
    · exact List.mem_cons_self
    · exact absurd hreply.symm (hother k hk)
  · have hcode := hpage code (by simp)
    have hstack := hpage stack (by simp)
    rcases hpaths.page_cases rfl rfl rfl hp hpf with ⟨rfl, rfl⟩ | ⟨rfl, rfl⟩ | ⟨rfl, rfl⟩ <;>
      rcases hpaths.page_cases rfl rfl rfl hq hqf with ⟨rfl, heq⟩ | ⟨rfl, heq⟩ | ⟨rfl, heq⟩
    · rfl
    · exact absurd heq hne
    · exact absurd heq hcode
    · exact absurd heq hne.symm
    · rfl
    · exact absurd heq hstack
    · exact absurd heq.symm hcode
    · exact absurd heq.symm hstack
    · rfl

theorem prepare_builds_intended_typical :
    Intended typical (prepareContextMm inOrder typical ⟨fun _ _ => 1, [], []⟩).2
        (prepareContextMm inOrder typical ⟨fun _ _ => 1, [], []⟩).1.pgd ∧
      Unshared (prepareContextMm inOrder typical ⟨fun _ _ => 1, [], []⟩).2.mem
        (prepareContextMm inOrder typical ⟨fun _ _ => 1, [], []⟩).1.pgd :=
  prepare_builds_intended inOrder inOrder_supply typical typical_apart (by decide)
    (fun _ hi => inOrder_ne_argPfn hi) _

end Rounds

end OsAssignments.AddressSpace.Actual
