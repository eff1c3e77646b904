import OsAssignments.ThreePages

/-!
# The address space built by `context_mm.c`

The walks are the ones of the loop version, but for two slips: the last table of the
code page is never cleared, and an entry of the top table that the data page shares
does not get the write bit of the data segment.
-/
namespace OsAssignments.AddressSpace.ContextMm

open Paging (Word Frame Index Memory Present pfn shift path entryFor translate)
open RadixTree PathTables

variable {frames : ℕ → Frame} {s s' : State} {r frame f g : Frame} {p q : List Index} {i j : Index}
variable {T : PathTable Frame Index} {base : List Index → Word} {pages : List Frame}
variable {w more flag vaddr : Word} {flags : BitVec 32} {c d : Bool}

section Words

lemma pdeIndex_eq {mask : Word} {n : ℕ} (hmask : mask >>> n = 511) :
    pdeIndex mask n vaddr = shift vaddr n := by
  rw [pdeIndex, shift, BitVec.ushiftRight_and_distrib, hmask]

lemma indexL4_eq : indexL4 vaddr = shift vaddr 39 := pdeIndex_eq (by decide)
lemma indexL3_eq : indexL3 vaddr = shift vaddr 30 := pdeIndex_eq (by decide)
lemma indexL2_eq : indexL2 vaddr = shift vaddr 21 := pdeIndex_eq (by decide)
lemma indexL1_eq : indexL1 vaddr = shift vaddr 12 := pdeIndex_eq (by decide)

/-- The flag of a segment that may be written or not. -/
def flagOf (c : Bool) : Word := if c then 2 else 0

lemma accessFlag_eq : accessFlag flags = flagOf (mayWrite flags) := by
  unfold accessFlag flagOf mayWrite
  split_ifs with h₁ h₂ h₂
  · rfl
  · exact absurd (decide_eq_true h₁) h₂
  · exact absurd (of_decide_eq_true h₂) h₁
  · rfl

lemma pte_eq : pte f (flagOf c) = entryFor (bits c) f := by
  have hlow : (5 : Word) ||| flagOf c = bits c := by cases c <;> decide
  have hseven : (f <<< 12).setWidth 64 &&& (7 : Word) = 0 := by
    rw [← BitVec.toNat_inj, and_seven_toNat, BitVec.toNat_setWidth, BitVec.toNat_shiftLeft,
      Nat.shiftLeft_eq]
    change _ = 0
    omega
  have hdisjoint : bits c &&& (f <<< 12).setWidth 64 = 0 := by
    rw [← bits_and_seven, BitVec.and_assoc, BitVec.and_comm 7, hseven]
    exact BitVec.and_zero
  rw [entryFor, BitVec.add_eq_or_of_and_eq_zero _ _ hdisjoint, ← hlow, pte, BitVec.setWidth_or,
    BitVec.or_assoc, BitVec.or_comm]
  rfl

lemma pte_and_seven : pte f (flagOf c) &&& 7 = bits c := by
  rw [pte_eq, entryFor_and_seven (bits_toNat_lt _), bits_and_seven]

lemma pfn_pte (hf : f.toNat < 2 ^ 20) : pfn (pte f (flagOf c)) = f := by
  rw [pte_eq, Paging.pfn_entryFor (bits_toNat_lt _) hf]

end Words

section Levels

lemma reset_spec : (∀ g, g ≠ f → (reset f s).mem g = s.mem g) ∧
    (∀ j, (reset f s).mem f j = 0) ∧ (reset f s).taken = s.taken ∧ (reset f s).freed = s.freed := by
  unfold reset
  exact zeroWords_spec

/-- Clearing a frame that holds nothing. -/
lemma reset_self (h : ∀ j, s.mem f j = 0) : reset f s = s := by
  rw [reset, zeroWords_eq]
  have hpage : (fun _ => 0) = s.mem f := funext fun j => (h j).symm
  rw [hpage, Function.update_eq_self]

/-- A new table is handed out, cleared and entered. -/
def given (frames : ℕ → Frame) (s : State) (frame : Frame) (i : Index) (c : Bool) : State :=
  (reset (frames s.taken.length) (osPfnAlloc frames .osPt s).2).store frame i
    (pte (frames s.taken.length) (flagOf c))

lemma given_taken : (given frames s frame i c).taken = (osPfnAlloc frames .osPt s).2.taken :=
  reset_spec.2.2.1

/-- Other frames are left as they are. -/
lemma given_mem (hg : g ≠ frame) (hg' : g ≠ frames s.taken.length) :
    (given frames s frame i c).mem g = s.mem g := by
  have hreset := (reset_spec (s := (osPfnAlloc frames .osPt s).2)).1 g hg'
  rw [given, store_mem_frame hg, hreset]
  rfl

theorem given_spec (h : Built frames s r T base pages) (hf : Supply frames)
    (hn : s.taken.length < 12) (hp : frameAt r T p = some frame) (hlen : p.length < 3)
    (hnone : T (p ++ [i]) = none) : Stepped frames s (given frames s frame i c) r T base pages
      (p ++ [i]) (frames s.taken.length) c := by
  refine ⟨?_, by rw [given_taken, osPfnAlloc_length]⟩
  unfold given
  obtain ⟨hmem, hclear, htaken, hfreed⟩ :=
    reset_spec (f := frames s.taken.length) (s := (osPfnAlloc frames .osPt s).2)
  generalize reset (frames s.taken.length) (osPfnAlloc frames .osPt s).2 = s' at *
  refine h.give hf hn hp hlen hnone hmem htaken hfreed (fun j => ?_) (Or.inr hclear)
    (fun _ _ _ => rfl) (h.inner [] (by simp)) pte_and_seven (pfn_pte (hf.below _ hn))
  rw [h.bare _ j hnone, hclear j]

/-- One level of the walk for stack or data. -/
theorem level_spec (h : Built frames s r T base pages) (hf : Supply frames)
    (hn : s.taken.length < 12) (hp : frameAt r T p = some frame) (hlen : p.length < 3)
    (hmore : ∀ x, T (p ++ [i]) = some x → s.mem frame i ||| more = s.mem frame i ||| flagOf d) :
    Stepped frames s (level frames more (flagOf c) i frame s).2 r T base pages (p ++ [i])
      (level frames more (flagOf c) i frame s).1 (if (T (p ++ [i])).isSome then d else c) := by
  have hlen' : (p ++ [i]).length = p.length + 1 := by rw [List.length_append, List.length_singleton]
  have hpres := h.present_iff (i := i) hp (by omega) (h.inner _ (by omega))
  rw [Paging.present_iff] at hpres
  have hword := h.words p i frame (by omega) hp
  cases hT : T (p ++ [i]) with
  | some x =>
    obtain ⟨f, c₀⟩ := x
    rw [hT] at hpres hword
    obtain ⟨hbits, hpfn⟩ := hword
    rw [level, if_pos (hpres.mpr rfl), hmore _ hT, hpfn]
    refine ⟨h.set hp (by omega) (Or.inr (by rw [hT]; rfl)) ?_ ?_, Nat.le_succ _⟩
    · rw [flagged, hT, BitVec.and_or_distrib_right, hbits, Option.any_some, Option.isSome_some,
        if_pos rfl]
      dsimp only
      cases c₀ <;> cases d <;> decide
    · rw [Paging.pfn_or (by cases d <;> decide), hpfn]
  | none =>
    rw [hT] at hpres
    have hgive := given_spec (c := c) h hf hn hp hlen hT
    unfold given at hgive
    rw [level, if_neg fun hsome => Bool.false_ne_true (hpres.mp hsome)]
    rw [osPfnAlloc, Option.isSome_none, if_neg Bool.false_ne_true]
    unfold osPfnAlloc at hgive
    dsimp only at hgive ⊢
    exact hgive

end Levels

section Code

/-- What a table that is never cleared leaves in the entries behind one path. -/
def leftover (table : List Index) (stale : Index → Word) : List Index → Word
  | [a, b, c, d] => if [a, b, c] = table then stale d else 0
  | _ => 0

lemma leftover_self {a b c : Index} {stale : Index → Word} :
    leftover [a, b, c] stale [a, b, c, j] = stale j := if_pos rfl

lemma leftover_of_ne {table : List Index} {stale : Index → Word} (hq : q ≠ table) :
    leftover table stale (q ++ [j]) = 0 := by
  match q with
  | [] => rfl
  | [_] => rfl
  | [_, _] => rfl
  | [_, _, _] => exact if_neg hq
  | [_, _, _, _] => rfl
  | _ :: _ :: _ :: _ :: _ :: _ => rfl

lemma mapCode_eq : mapCode frames r vaddr (flagOf c) s =
    let s₁ := given frames s r (shift vaddr 39) c
    let s₂ := given frames s₁ (frames s.taken.length) (shift vaddr 30) c
    let s₃ := (reset (frames s₁.taken.length) (osPfnAlloc frames .osPt s₂).2).store
      (frames s₁.taken.length) (shift vaddr 21) (pte (frames s₂.taken.length) (flagOf c))
    (reset (frames s₃.taken.length) (osPfnAlloc frames .user s₃).2).store
      (frames s₂.taken.length) (shift vaddr 12) (pte (frames s₃.taken.length) (flagOf c)) := by
  unfold mapCode given
  rw [indexL4_eq, indexL3_eq, indexL2_eq, indexL1_eq]
  rfl

/-- The last table of the code page is entered as it was handed out: its parent, which is still
empty, is cleared in its place. -/
lemma stale_spec {a b : Index} (h : Built frames s r T (fun _ => 0) pages) (hf : Supply frames)
    (hn : s.taken.length < 12) (hp : frameAt r T [a, b] = some frame)
    (hnone : ∀ j, T ([a, b] ++ [j]) = none) :
    Stepped frames s ((reset frame (osPfnAlloc frames .osPt s).2).store frame i
        (pte (frames s.taken.length) (flagOf c))) r T
      (leftover [a, b, i] (s.mem (frames s.taken.length))) pages [a, b, i]
      (frames s.taken.length) c := by
  have hempty : ∀ j, (osPfnAlloc frames .osPt s).2.mem frame j = 0 := by
    intro j
    have hword := h.words _ j _ (by simp) hp
    rw [hnone j] at hword
    exact hword
  rw [reset_self hempty]
  refine ⟨?_, by rw [store_taken, osPfnAlloc_length]⟩
  exact h.give hf hn hp (by simp) (hnone i) (fun _ _ => rfl) rfl rfl (fun _ => leftover_self)
    (Or.inl rfl) (fun q j hq => leftover_of_ne hq) rfl pte_and_seven (pfn_pte (hf.below _ hn))

/-- The path of the code page is entered, with a last table that holds what it held. -/
theorem mapCode_spec (vaddr : Word) (h : Built frames s r (fun _ => none) (fun _ => 0) [])
    (hf : Supply frames) (hn : s.taken.length = 1) :
    ∃ T page, Built frames (mapCode frames r vaddr (flagOf c) s) r T
        (leftover [shift vaddr 39, shift vaddr 30, shift vaddr 21] (s.mem (frames 3))) [page] ∧
      Entered (fun _ => none) T (path vaddr) (fun _ => c) page ∧
      (mapCode frames r vaddr (flagOf c) s).taken.length ≤ 5 := by
  rw [mapCode_eq]
  dsimp only
  have hdistinct : ∀ i j, i < 12 → j < 12 → i ≠ j → frames i ≠ frames j :=
    fun i j hi hj hne heq => hne (hf.distinct i j hi hj heq)
  have hroot : r ≠ frames 3 := by
    obtain ⟨k, hk, heq⟩ := h.taken_reply ((h.taken (.osPt, r)).mpr
      (Or.inl ⟨[], r, by simp, frameAt_nil, rfl⟩))
    change r = frames k at heq
    rw [heq]
    exact hdistinct k 3 (by omega) (by omega) (by omega)
  have h₁ : Stepped frames s (given frames s r (shift vaddr 39) c) r (fun _ => none) (fun _ => 0)
      [] [shift vaddr 39] (frames s.taken.length) c :=
    given_spec (p := []) h hf (by omega) frameAt_nil (by simp) rfl
  have hstale₁ : (given frames s r (shift vaddr 39) c).mem (frames 3) = s.mem (frames 3) :=
    given_mem hroot.symm (by rw [hn]; exact hdistinct 3 1 (by omega) (by omega) (by omega))
  have hn₁ : (given frames s r (shift vaddr 39) c).taken.length = 2 := by
    rw [given_taken, osPfnAlloc_length, hn]
  generalize given frames s r (shift vaddr 39) c = s₁ at *
  have h₂ := given_spec (p := [shift vaddr 39]) (i := shift vaddr 30) (c := c) h₁.built hf
    (by omega) (frameAt_mark_self (by simp)) (by simp) (mark_of_ne (by simp))
  have hstale₂ : (given frames s₁ (frames s.taken.length) (shift vaddr 30) c).mem (frames 3) =
      s₁.mem (frames 3) := by
    apply given_mem
    · rw [hn]
      exact hdistinct 3 1 (by omega) (by omega) (by omega)
    · rw [hn₁]
      exact hdistinct 3 2 (by omega) (by omega) (by omega)
  have hn₂ : (given frames s₁ (frames s.taken.length) (shift vaddr 30) c).taken.length = 3 := by
    rw [given_taken, osPfnAlloc_length, hn₁]
  generalize given frames s₁ (frames s.taken.length) (shift vaddr 30) c = s₂ at *
  have h₃ := stale_spec (i := shift vaddr 21) (c := c) h₂.built hf (by omega)
    (frameAt_mark_self (by simp)) fun j => by rw [mark_of_ne (by simp), mark_of_ne (by simp)]
  have hn₃ : ((reset (frames s₁.taken.length) (osPfnAlloc frames .osPt s₂).2).store
      (frames s₁.taken.length) (shift vaddr 21)
      (pte (frames s₂.taken.length) (flagOf c))).taken.length = 4 := by
    rw [store_taken, reset_spec.2.2.1, osPfnAlloc_length, hn₂]
  generalize (reset (frames s₁.taken.length) (osPfnAlloc frames .osPt s₂).2).store
    (frames s₁.taken.length) (shift vaddr 21) (pte (frames s₂.taken.length) (flagOf c)) = s₃ at *
  rw [show s₂.mem (frames s₂.taken.length) = s.mem (frames 3) by rw [hn₂, hstale₂, hstale₁]] at h₃
  obtain ⟨T, hwalk⟩ := walked_of_stepped (v := fun _ => c) h₁ h₂ h₃ rfl rfl rfl
  obtain ⟨hmem, -, htaken, hfreed⟩ :=
    reset_spec (f := frames s₃.taken.length) (s := (osPfnAlloc frames .user s₃).2)
  generalize reset (frames s₃.taken.length) (osPfnAlloc frames .user s₃).2 = s' at *
  have hpage := hwalk.enterNew (d := shift vaddr 12) hf (by omega) rfl hmem htaken
    (hfreed.trans osPfnAlloc_freed) (pte_and_seven (f := frames s₃.taken.length) (c := c))
  rw [pfn_pte (hf.below _ (by omega))] at hpage
  refine ⟨_, _, hpage, hwalk.entered _ _, ?_⟩
  rw [store_taken, htaken, osPfnAlloc_length, hn₃]

end Code

section StackAndData

/-- The path of the stack page is entered, with the flag of its segment all the way. -/
theorem mapStack_spec (vaddr : Word) (h : Built frames s r T base pages) (hf : Supply frames)
    (hn : s.taken.length + 4 ≤ 12) (hnone : T (path vaddr) = none) :
    ∃ T' f, Built frames (mapStack frames r vaddr (flagOf c) s) r T' base (pages ++ [f]) ∧
      Entered T T' (path vaddr) (fun _ => c) f ∧
      (mapStack frames r vaddr (flagOf c) s).taken.length ≤ s.taken.length + 4 := by
  unfold mapStack
  rw [indexL4_eq, indexL3_eq, indexL2_eq, indexL1_eq]
  dsimp only
  have h₁ := level_spec (c := c) (d := c) (i := shift vaddr 39) (p := []) h hf (by omega)
    frameAt_nil (by simp) fun _ _ => rfl
  generalize level frames (flagOf c) (flagOf c) (shift vaddr 39) r s = x₁ at h₁ ⊢
  have h₂ := level_spec (c := c) (d := c) (i := shift vaddr 30) h₁.built hf
    (by have := h₁.length; omega) (frameAt_mark_self (by simp)) (by simp) fun _ _ => rfl
  generalize level frames (flagOf c) (flagOf c) (shift vaddr 30) x₁.1 x₁.2 = x₂ at h₂ ⊢
  have h₃ := level_spec (c := c) (d := c) (i := shift vaddr 21) h₂.built hf
    (by have := h₁.length; have := h₂.length; omega) (frameAt_mark_self (by simp)) (by simp)
    fun _ _ => rfl
  generalize level frames (flagOf c) (flagOf c) (shift vaddr 21) x₂.1 x₂.2 = x₃ at h₃ ⊢
  obtain ⟨T', hwalk⟩ := walked_of_stepped (v := fun _ => c) h₁ h₂ h₃ (ite_self c).symm
    (ite_self c).symm (ite_self c).symm
  have hlen := hwalk.length
  have hfst : (osPfnAlloc frames .user x₃.2).1 = frames x₃.2.taken.length := rfl
  rw [hfst]
  obtain ⟨hmem, -, htaken, hfreed⟩ :=
    reset_spec (f := frames x₃.2.taken.length) (s := (osPfnAlloc frames .user x₃.2).2)
  generalize reset (frames x₃.2.taken.length) (osPfnAlloc frames .user x₃.2).2 = s' at *
  have hpage := hwalk.enterNew (d := shift vaddr 12) hf (by omega) hnone hmem htaken
    (hfreed.trans osPfnAlloc_freed) (pte_and_seven (f := frames x₃.2.taken.length) (c := c))
  rw [pfn_pte (hf.below _ (by omega))] at hpage
  refine ⟨_, _, hpage, hwalk.entered _ _, ?_⟩
  change s'.taken.length ≤ _
  rw [htaken, osPfnAlloc_length]
  omega

/-- The flags on the way to the data page: its entry of the top table keeps its own when it
is there already. -/
def dataFlags (T : PathTable Frame Index) (c : Bool) (q : List Index) : Bool :=
  if q.length = 1 ∧ (T q).isSome then false else c

/-- The path of the data page is entered, and leads to the frame given. -/
theorem mapData_spec (vaddr : Word) (argPfn : Frame) (h : Built frames s r T base pages)
    (hf : Supply frames) (hn : s.taken.length + 3 ≤ 12) (hnone : T (path vaddr) = none) :
    ∃ T', Built frames (mapData frames r vaddr (flagOf c) argPfn s) r T' base pages ∧
      Entered T T' (path vaddr) (dataFlags T c) (pfn (pte argPfn (flagOf c))) ∧
      (mapData frames r vaddr (flagOf c) argPfn s).taken.length ≤ s.taken.length + 3 := by
  unfold mapData
  rw [indexL4_eq, indexL3_eq, indexL2_eq, indexL1_eq]
  dsimp only
  have h₁ := level_spec (c := c) (d := false) (i := shift vaddr 39) (p := []) h hf (by omega)
    frameAt_nil (by simp) fun _ _ => by rw [BitVec.or_self]; exact BitVec.or_zero.symm
  generalize level frames (s.mem r (shift vaddr 39)) (flagOf c) (shift vaddr 39) r s = x₁ at h₁ ⊢
  have h₂ := level_spec (c := c) (d := c) (i := shift vaddr 30) h₁.built hf
    (by have := h₁.length; omega) (frameAt_mark_self (by simp)) (by simp) fun _ _ => rfl
  generalize level frames (flagOf c) (flagOf c) (shift vaddr 30) x₁.1 x₁.2 = x₂ at h₂ ⊢
  have h₃ := level_spec (c := c) (d := c) (i := shift vaddr 21) h₂.built hf
    (by have := h₁.length; have := h₂.length; omega) (frameAt_mark_self (by simp)) (by simp)
    fun _ _ => rfl
  generalize level frames (flagOf c) (flagOf c) (shift vaddr 21) x₂.1 x₂.2 = x₃ at h₃ ⊢
  obtain ⟨T', hwalk⟩ := walked_of_stepped (v := dataFlags T c) h₁ h₂ h₃ (by simp [dataFlags])
    (by simp [dataFlags]) (by simp [dataFlags])
  exact ⟨_, hwalk.enter hnone (by simpa [dataFlags, path] using pte_and_seven),
    hwalk.entered _ _, hwalk.length⟩

end StackAndData

section Prepare

variable {ctx : ExecContext} {mem : Memory}

/-- The walks enter the paths of code, stack and data. -/
theorem prepare_spec (mem : Memory) (hf : Supply frames) (hctx : Apart ctx) :
    ∃ T w code stack, Built frames (prepareContextMm frames ctx ⟨mem, [], []⟩).2 (frames 0) T
        (leftover [shift (codePage ctx) 39, shift (codePage ctx) 30, shift (codePage ctx) 21]
          (mem (frames 3))) [code, stack] ∧
      (prepareContextMm frames ctx ⟨mem, [], []⟩).2.taken.length ≤ 12 ∧
      ThreePaths T (path (codePage ctx)) (path (stackPage ctx)) (path (dataPage ctx))
        (fun _ => mayWrite (ctx.mms .code).accessFlags)
        (fun _ => mayWrite (ctx.mms .stack).accessFlags) w code stack
        (pfn (pte ctx.argPfn (flagOf (mayWrite (ctx.mms .data).accessFlags)))) ∧
      ∀ q, q ≠ [] → (w q ↔ ¬(q.length = 1 ∧ (q <+: path (codePage ctx) ∨
        q <+: path (stackPage ctx))) ∧ mayWrite (ctx.mms .data).accessFlags) := by
  obtain ⟨hcodeStack, hcodeData, hstackData⟩ := hctx.paths_ne
  have hmaps : (prepareContextMm frames ctx ⟨mem, [], []⟩).2 =
      mapData frames (frames 0) (dataPage ctx) (flagOf (mayWrite (ctx.mms .data).accessFlags))
        ctx.argPfn (mapStack frames (frames 0) (stackPage ctx)
          (flagOf (mayWrite (ctx.mms .stack).accessFlags)) (mapCode frames (frames 0) (codePage ctx)
            (flagOf (mayWrite (ctx.mms .code).accessFlags))
            (reset (frames 0) (osPfnAlloc frames .osPt ⟨mem, [], []⟩).2))) := by
    rw [← accessFlag_eq, ← accessFlag_eq, ← accessFlag_eq]
    rfl
  rw [hmaps]
  obtain ⟨hother, hclear, htaken, hfreed⟩ :=
    reset_spec (f := frames 0) (s := (osPfnAlloc frames .osPt ⟨mem, [], []⟩).2)
  generalize reset (frames 0) (osPfnAlloc frames .osPt ⟨mem, [], []⟩).2 = s₀ at *
  have hstale : s₀.mem (frames 3) = mem (frames 3) := hother _ fun heq => by
    cases hf.distinct 3 0 (by omega) (by omega) heq
  have hlen₀ : s₀.taken.length = 1 := by
    rw [htaken]
    rfl
  obtain ⟨T₁, code, hb₁, he₁, hl₁⟩ := mapCode_spec (c := mayWrite (ctx.mms .code).accessFlags)
    (codePage ctx) (built_nil hclear htaken hfreed) hf hlen₀
  rw [hstale] at hb₁
  generalize mapCode frames (frames 0) (codePage ctx) _ s₀ = s₁ at *
  obtain ⟨T₂, stack, hb₂, he₂, hl₂⟩ := mapStack_spec (c := mayWrite (ctx.mms .stack).accessFlags)
    (stackPage ctx) hb₁ hf (by omega)
    (he₁.kept (path (stackPage ctx)) (not_isPrefix_of_length rfl hcodeStack.symm))
  generalize mapStack frames (frames 0) (stackPage ctx) _ s₁ = s₂ at *
  have hnone : T₂ (path (dataPage ctx)) = none :=
    (he₂.kept (path (dataPage ctx)) (not_isPrefix_of_length rfl hstackData.symm)).trans
      (he₁.kept (path (dataPage ctx)) (not_isPrefix_of_length rfl hcodeData.symm))
  obtain ⟨T₃, hb₃, he₃, hl₃⟩ := mapData_spec (c := mayWrite (ctx.mms .data).accessFlags)
    (dataPage ctx) ctx.argPfn hb₂ hf (by omega) hnone
  refine ⟨T₃, _, code, stack, hb₃, by omega,
    threePaths_of_entered rfl rfl rfl hcodeStack hcodeData hstackData he₁ he₂ he₃, fun q hq => ?_⟩
  have hsome : (T₂ q).isSome ↔ q <+: path (codePage ctx) ∨ q <+: path (stackPage ctx) := by
    rw [he₂.isSome, he₁.isSome]
    simp only [Option.isSome_none, Bool.false_eq_true]
    tauto
  rw [dataFlags, ← hsome]
  split_ifs with hshared
  · simp [hshared]
  · simp only [hshared, not_false_eq_true, true_and]

/-- What the two slips need to do no harm. -/
structure Spared (ctx : ExecContext) (stale : Index → Word) : Prop where
  /-- The table of the code page is handed out with no present entry for another page. -/
  clean : ∀ a, page a / 512 = page (codePage ctx) / 512 → page a ≠ page (codePage ctx) →
    page a ≠ page (stackPage ctx) → page a ≠ page (dataPage ctx) → ¬Present (stale (shift a 12))
  /-- A shared entry of the top table is writable when the data page needs it. -/
  write : mayWrite (ctx.mms .data).accessFlags →
    shift (dataPage ctx) 39 = shift (codePage ctx) 39 ∨
      shift (dataPage ctx) 39 = shift (stackPage ctx) 39 →
    shift (dataPage ctx) 39 = shift (codePage ctx) 39 ∧ mayWrite (ctx.mms .code).accessFlags ∨
      shift (dataPage ctx) 39 = shift (stackPage ctx) 39 ∧ mayWrite (ctx.mms .stack).accessFlags
  /-- The frame of the data page fits in an entry. -/
  argPfn : ctx.argPfn.toNat < 2 ^ 20

lemma pfn_pte_eq : pfn (pte f (flagOf c)) = f ↔ f.toNat < 2 ^ 20 := by
  rw [← BitVec.toNat_inj, pte_eq, Paging.pfn_entryFor_toNat (bits_toNat_lt c)]
  exact ⟨fun h => h ▸ Nat.mod_lt _ (by norm_num), Nat.mod_eq_of_lt⟩

/-- The way to the data page is flagged as its segment asks when a shared entry of the top
table is. -/
lemma data_flagged_iff {w : List Index → Bool} {code stack data : Frame}
    (hT : ThreePaths T (path (codePage ctx)) (path (stackPage ctx)) (path (dataPage ctx))
      (fun _ => mayWrite (ctx.mms .code).accessFlags)
      (fun _ => mayWrite (ctx.mms .stack).accessFlags) w code stack data) (hctx : Apart ctx)
    (hw : ∀ q, q ≠ [] → (w q ↔ ¬(q.length = 1 ∧ (q <+: path (codePage ctx) ∨
      q <+: path (stackPage ctx))) ∧ mayWrite (ctx.mms .data).accessFlags)) :
    ((∀ p, p ≠ [] → p <+: path (dataPage ctx) → flagged T p) ↔
        mayWrite (ctx.mms .data).accessFlags) ↔
      (mayWrite (ctx.mms .data).accessFlags →
        shift (dataPage ctx) 39 = shift (codePage ctx) 39 ∨
          shift (dataPage ctx) 39 = shift (stackPage ctx) 39 →
        shift (dataPage ctx) 39 = shift (codePage ctx) 39 ∧ mayWrite (ctx.mms .code).accessFlags ∨
          shift (dataPage ctx) 39 = shift (stackPage ctx) 39 ∧
            mayWrite (ctx.mms .stack).accessFlags) := by
  have htop : ∀ a, [shift (dataPage ctx) 39] <+: path a ↔ shift (dataPage ctx) 39 = shift a 39 := by
    intro a
    rw [path, List.cons_prefix_cons]
    exact and_iff_left (List.nil_prefix)
  have hfirst := hT.flagged [shift (dataPage ctx) 39]
  have hwfirst := hw [shift (dataPage ctx) 39] (by simp)
  simp only [htop, List.length_singleton, true_and, ne_eq, List.cons_ne_nil, not_false_eq_true]
    at hfirst hwfirst
  constructor
  · intro hall hd hshared
    rcases hfirst.mp (hall.mpr hd _ (by simp) ((htop _).mpr rfl)) with h | h | h
    · exact Or.inl h
    · exact Or.inr h
    · exact absurd hshared (hwfirst.mp h).1
  · intro hcond
    constructor
    · intro hall
      rcases ((hT.flagged _).mp (hall _ (by simp [path]) (List.prefix_refl _))).2 with
        ⟨hpre, -⟩ | ⟨hpre, -⟩ | ⟨-, h⟩
      · exact absurd hpre (not_isPrefix_of_length rfl
          fun heq => hctx.codeData (path_inj.mp heq.symm))
      · exact absurd hpre (not_isPrefix_of_length rfl
          fun heq => hctx.stackData (path_inj.mp heq.symm))
      · exact ((hw _ (by simp [path])).mp h).2
    · intro hd p hp hpre
      by_cases hshared : p.length = 1 ∧ (p <+: path (codePage ctx) ∨ p <+: path (stackPage ctx))
      · obtain ⟨i, rfl⟩ := List.length_eq_one_iff.mp hshared.1
        have hi : i = shift (dataPage ctx) 39 := by
          rw [path, List.cons_prefix_cons] at hpre
          exact hpre.1
        subst hi
        rw [htop, htop] at hshared
        exact hfirst.mpr ((hcond hd hshared.2).imp id Or.inl)
      · exact (hT.flagged p).mpr ⟨hp, Or.inr (Or.inr ⟨hpre, (hw p hp).mpr ⟨hshared, hd⟩⟩)⟩

/-- No page is mapped besides the three when the table of the code page is handed out with no
present entry for another one. -/
lemma cleanEntries_iff {w : List Index → Bool} {code stack data : Frame} {stale : Index → Word}
    (h : Built frames s r T (leftover [shift (codePage ctx) 39, shift (codePage ctx) 30,
      shift (codePage ctx) 21] stale) pages)
    (hT : ThreePaths T (path (codePage ctx)) (path (stackPage ctx)) (path (dataPage ctx))
      (fun _ => mayWrite (ctx.mms .code).accessFlags)
      (fun _ => mayWrite (ctx.mms .stack).accessFlags) w code stack data) :
    (∀ a, T (path a) = none → translate 1 s.mem r a = none) ↔
      ∀ a, page a / 512 = page (codePage ctx) / 512 → page a ≠ page (codePage ctx) →
        page a ≠ page (stackPage ctx) → page a ≠ page (dataPage ctx) →
        ¬Present (stale (shift a 12)) := by
  have hcode : frameAt r T
      [shift (codePage ctx) 39, shift (codePage ctx) 30, shift (codePage ctx) 21] ≠ none := by
    rw [frameAt, if_neg (by simp), Ne, Option.map_eq_none_iff, ← Ne, Option.ne_none_iff_isSome,
      hT.isSome]
    exact ⟨by simp, Or.inl (List.prefix_append _ [shift (codePage ctx) 12])⟩
  refine forall_congr' fun a => ?_
  have hnone : T (path a) = none ↔ page a ≠ page (codePage ctx) ∧
      page a ≠ page (stackPage ctx) ∧ page a ≠ page (dataPage ctx) := by
    rw [← Option.not_isSome_iff_eq_none, hT.isSome_four rfl rfl rfl rfl, path_inj, path_inj,
      path_inj]
    tauto
  rw [hnone]
  constructor
  · intro hall hregion hne₁ hne₂ hne₃
    have htranslate := hall ⟨hne₁, hne₂, hne₃⟩
    rw [translate_none h (hnone.mpr ⟨hne₁, hne₂, hne₃⟩), tables_inj.mpr hregion] at htranslate
    have hleft := htranslate.resolve_left hcode
    rwa [path, leftover, if_pos (tables_inj.mpr hregion)] at hleft
  · rintro hall ⟨hne₁, hne₂, hne₃⟩
    rw [translate_none h (hnone.mpr ⟨hne₁, hne₂, hne₃⟩)]
    apply Or.inr
    by_cases hregion : page a / 512 = page (codePage ctx) / 512
    · rw [path, leftover, if_pos (tables_inj.mpr hregion)]
      exact hall hregion hne₁ hne₂ hne₃
    · rw [path, leftover, if_neg fun heq => hregion (tables_inj.mp heq)]
      exact Paging.not_present_zero

/-- The address space is the intended one exactly when the slips do no harm; frame number 3 is
the last table of the code page. -/
theorem prepare_intended_iff (frames : ℕ → Frame) (hf : Supply frames) (ctx : ExecContext)
    (hctx : Apart ctx) (mem : Memory) :
    Intended ctx (prepareContextMm frames ctx ⟨mem, [], []⟩).2
        (prepareContextMm frames ctx ⟨mem, [], []⟩).1.pgd ↔ Spared ctx (mem (frames 3)) := by
  obtain ⟨T, w, code, stack, hbuilt, -, hpaths, hw⟩ := prepare_spec mem hf hctx
  have hpgd : (prepareContextMm frames ctx ⟨mem, [], []⟩).1.pgd = frames 0 := rfl
  rw [hpgd]
  have hne : code ≠ stack := by
    rintro rfl
    exact (List.nodup_cons.mp hbuilt.nodup).1 (List.mem_singleton_self code)
  rw [intended_iff hbuilt hpaths hctx (by simp) (by simp) hne (fun _ => rfl) fun _ => rfl,
    pfn_pte_eq, data_flagged_iff hpaths hctx hw, cleanEntries_iff hbuilt hpaths]
  constructor
  · rintro ⟨hclean, harg, hwrite⟩
    exact ⟨hclean, hwrite, harg⟩
  · rintro ⟨hclean, hwrite, harg⟩
    exact ⟨hclean, harg, hwrite⟩

/-- With frames that are empty when handed out, a process with writable stack and data. -/
theorem prepare_intended_iff_typical :
    Intended typical (prepareContextMm inOrder typical ⟨fun _ _ => 0, [], []⟩).2
      (prepareContextMm inOrder typical ⟨fun _ _ => 0, [], []⟩).1.pgd := by
  refine (prepare_intended_iff inOrder inOrder_supply typical typical_apart fun _ _ => 0).mpr
    ⟨fun _ _ _ _ _ => Paging.not_present_zero, fun _ _ => Or.inr ⟨by decide, by decide⟩, by decide⟩

/-- With frames full of ones, the page next to that of code is mapped too. -/
theorem stale_table_mapped : ¬∀ (frames : ℕ → Frame) (_ : Supply frames) (ctx : ExecContext)
    (_ : Apart ctx) (_ : ctx.argPfn.toNat < 2 ^ 20) (_ : ∀ i, i < 12 → frames i ≠ ctx.argPfn)
    (mem : Memory), Intended ctx (prepareContextMm frames ctx ⟨mem, [], []⟩).2
      (prepareContextMm frames ctx ⟨mem, [], []⟩).1.pgd := by
  intro hclaim
  have hintended := hclaim inOrder inOrder_supply typical typical_apart (by decide)
    (fun _ hi => inOrder_ne_argPfn hi) fun _ _ => 1
  obtain ⟨T, w, code, stack, hbuilt, -, hpaths, -⟩ :=
    prepare_spec (fun _ _ => 1) inOrder_supply typical_apart
  have hne : code ≠ stack := by
    rintro rfl
    exact (List.nodup_cons.mp hbuilt.nodup).1 (List.mem_singleton_self code)
  have hparts := (intended_iff hbuilt hpaths typical_apart (by simp) (by simp) hne (fun _ => rfl)
    fun _ => rfl).mp hintended
  exact (cleanEntries_iff hbuilt hpaths).mp hparts.1 0x100001000 (by decide) (by decide) (by decide)
    (by decide) (by decide)

end Prepare

end OsAssignments.AddressSpace.ContextMm
