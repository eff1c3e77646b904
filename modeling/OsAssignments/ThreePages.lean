import OsAssignments.TableBuilding

/-!
# A table with three pages

What the walks find once the paths of code, stack and data are entered.
-/
namespace OsAssignments.AddressSpace

open Paging (Word Frame Index Memory Present shift path links translate)
open RadixTree PathTables

variable {frames : ℕ → Frame} {s : State} {r f g : Frame} {p q : List Index} {i j : Index}
variable {T T₁ T₂ T₃ : PathTable Frame Index} {base : List Index → Word} {pages : List Frame}
variable {a b : Word}

section Pages

/-- The number of the 48-bit page of an address. -/
def page (address : Word) : ℕ := address.toNat / 4096 % 2 ^ 36

/-- The indices of an address determine its page. -/
lemma path_inj : path a = path b ↔ page a = page b := by
  simp only [path, page, List.cons.injEq, and_true, ← BitVec.toNat_inj, Paging.shift_toNat]
  omega

/-- The indices above the last one determine the region of 512 pages. -/
lemma tables_inj : [shift a 39, shift a 30, shift a 21] = [shift b 39, shift b 30, shift b 21] ↔
    page a / 512 = page b / 512 := by
  simp only [page, List.cons.injEq, and_true, ← BitVec.toNat_inj, Paging.shift_toNat]
  omega

variable {π₁ π₂ π₃ : List Index} {w₁ w₂ w₃ : List Index → Bool} {f₁ f₂ f₃ : Frame}

/-- Three paths of four indices are entered, and no others. -/
structure ThreePaths (T : PathTable Frame Index) (π₁ π₂ π₃ : List Index)
    (w₁ w₂ w₃ : List Index → Bool) (f₁ f₂ f₃ : Frame) : Prop where
  isSome : ∀ q, (T q).isSome ↔ q ≠ [] ∧ (q <+: π₁ ∨ q <+: π₂ ∨ q <+: π₃)
  flagged : ∀ q, flagged T q ↔
    q ≠ [] ∧ (q <+: π₁ ∧ w₁ q ∨ q <+: π₂ ∧ w₂ q ∨ q <+: π₃ ∧ w₃ q)
  first : (T π₁).map Prod.fst = some f₁
  second : (T π₂).map Prod.fst = some f₂
  third : (T π₃).map Prod.fst = some f₃

lemma not_isPrefix_of_length (hlen : p.length = q.length) (hne : p ≠ q) : ¬p <+: q :=
  fun h => hne (h.eq_of_length hlen)

theorem threePaths_of_entered (hlen₁ : π₁.length = 4) (hlen₂ : π₂.length = 4)
    (hlen₃ : π₃.length = 4) (h₁₂ : π₁ ≠ π₂) (h₁₃ : π₁ ≠ π₃) (h₂₃ : π₂ ≠ π₃)
    (h₁ : Entered (fun _ => none) T₁ π₁ w₁ f₁) (h₂ : Entered T₁ T₂ π₂ w₂ f₂)
    (h₃ : Entered T₂ T₃ π₃ w₃ f₃) : ThreePaths T₃ π₁ π₂ π₃ w₁ w₂ w₃ f₁ f₂ f₃ := by
  refine ⟨fun q => ?_, fun q => ?_, ?_, ?_, h₃.page⟩
  · rw [h₃.isSome, h₂.isSome, h₁.isSome]
    simp only [Option.isSome_none, Bool.false_eq_true]
    tauto
  · rw [h₃.flagged, h₂.flagged, h₁.flagged]
    simp only [PathTables.flagged, Option.any_none, Bool.false_eq_true]
    tauto
  · rw [h₃.kept _ (not_isPrefix_of_length (hlen₁.trans hlen₃.symm) h₁₃),
      h₂.kept _ (not_isPrefix_of_length (hlen₁.trans hlen₂.symm) h₁₂), h₁.page]
  · rw [h₃.kept _ (not_isPrefix_of_length (hlen₂.trans hlen₃.symm) h₂₃), h₂.page]

/-- A path of four indices is entered when it is one of the three. -/
lemma ThreePaths.isSome_four (h : ThreePaths T π₁ π₂ π₃ w₁ w₂ w₃ f₁ f₂ f₃) (hlen₁ : π₁.length = 4)
    (hlen₂ : π₂.length = 4) (hlen₃ : π₃.length = 4) (hq : q.length = 4) :
    (T q).isSome ↔ q = π₁ ∨ q = π₂ ∨ q = π₃ := by
  have hpre : ∀ π : List Index, π.length = 4 → (q <+: π ↔ q = π) := fun π hπ =>
    ⟨fun h => h.eq_of_length (hq.trans hπ.symm), fun h => h ▸ List.prefix_refl q⟩
  have hne : q ≠ [] := by
    rintro rfl
    cases hq
  rw [h.isSome, hpre _ hlen₁, hpre _ hlen₂, hpre _ hlen₃]
  exact and_iff_right hne

lemma ThreePaths.page_cases (h : ThreePaths T π₁ π₂ π₃ w₁ w₂ w₃ f₁ f₂ f₃) (hlen₁ : π₁.length = 4)
    (hlen₂ : π₂.length = 4) (hlen₃ : π₃.length = 4) (hq : q.length = 4)
    (hf : (T q).map Prod.fst = some f) :
    q = π₁ ∧ f = f₁ ∨ q = π₂ ∧ f = f₂ ∨ q = π₃ ∧ f = f₃ := by
  have hsome : (T q).isSome := by
    rw [← Option.isSome_map (f := Prod.fst), hf]
    rfl
  rcases (h.isSome_four hlen₁ hlen₂ hlen₃ hq).mp hsome with rfl | rfl | rfl
  · exact Or.inl ⟨rfl, Option.some.inj (hf.symm.trans h.first)⟩
  · exact Or.inr (Or.inl ⟨rfl, Option.some.inj (hf.symm.trans h.second)⟩)
  · exact Or.inr (Or.inr ⟨rfl, Option.some.inj (hf.symm.trans h.third)⟩)

lemma ThreePaths.rotate (h : ThreePaths T π₁ π₂ π₃ w₁ w₂ w₃ f₁ f₂ f₃) :
    ThreePaths T π₂ π₃ π₁ w₂ w₃ w₁ f₂ f₃ f₁ := by
  refine ⟨fun q => (h.isSome q).trans ?_, fun q => (h.flagged q).trans ?_,
    h.second, h.third, h.first⟩
  · exact and_congr_right' or_rotate
  · exact and_congr_right' or_rotate

lemma ThreePaths.swap (h : ThreePaths T π₁ π₂ π₃ w₁ w₂ w₃ f₁ f₂ f₃) :
    ThreePaths T π₂ π₁ π₃ w₂ w₁ w₃ f₂ f₁ f₃ := by
  refine ⟨fun q => (h.isSome q).trans ?_, fun q => (h.flagged q).trans ?_,
    h.second, h.first, h.third⟩
  · exact and_congr_right' or_left_comm
  · exact and_congr_right' or_left_comm

/-- The way to a page with one flag all the way is flagged when that flag is. -/
lemma ThreePaths.flagged_first {c : Bool} (h : ThreePaths T π₁ π₂ π₃ w₁ w₂ w₃ f₁ f₂ f₃)
    (hlen₁ : π₁.length = 4) (hlen₂ : π₂.length = 4) (hlen₃ : π₃.length = 4) (h₁₂ : π₁ ≠ π₂)
    (h₁₃ : π₁ ≠ π₃) (hw : ∀ q, w₁ q = c) :
    (∀ p, p ≠ [] → p <+: π₁ → PathTables.flagged T p) ↔ c := by
  constructor
  · intro hall
    have hne : π₁ ≠ [] := by
      rintro rfl
      cases hlen₁
    rcases ((h.flagged π₁).mp (hall π₁ hne (List.prefix_refl _))).2 with ⟨-, hc⟩ | ⟨hpre, -⟩ |
      ⟨hpre, -⟩
    · rwa [hw] at hc
    · exact absurd hpre (not_isPrefix_of_length (hlen₁.trans hlen₂.symm) h₁₂)
    · exact absurd hpre (not_isPrefix_of_length (hlen₁.trans hlen₃.symm) h₁₃)
  · intro hc p hp hpre
    exact (h.flagged p).mpr ⟨hp, Or.inl ⟨hpre, by rwa [hw]⟩⟩

end Pages

section Accesses

/-- Every entry is open to reads in user mode. -/
lemma open_five : Open T 5 q := by
  intro p _ _
  cases flagged T p <;> decide

lemma open_one : Open T 1 q := by
  intro p _ _
  cases flagged T p <;> decide

lemma open_seven : Open T 7 q ↔ ∀ p, p ≠ [] → p <+: q → flagged T p := by
  refine forall_congr' fun p => forall_congr' fun _ => forall_congr' fun _ => ?_
  cases flagged T p <;> decide

variable (h : Built frames s r T base pages) (hbase : (T (path a)).isSome ∨ base (path a) = 0)
include h hbase

/-- An access that every entry lets through. -/
lemma translate_read {need : Word} (hneed : need = 1 ∨ need = 5) :
    translate need s.mem r a = (T (path a)).map Prod.fst := by
  have hopen : Open T need (path a) := by
    rcases hneed with rfl | rfl
    · exact open_one
    · exact open_five
  have hneed' : need &&& 7 = need ∧ need &&& 1 = 1 := by
    rcases hneed with rfl | rfl <;> decide
  ext f
  rw [Paging.translate, h.follow_eq_some hneed'.1 hneed'.2 (by simp [path]) hbase]
  exact and_iff_left hopen

/-- A write is let through when the whole way is flagged. -/
lemma translate_write : (translate 7 s.mem r a).isSome ↔
    (T (path a)).isSome ∧ ∀ p, p ≠ [] → p <+: path a → flagged T p := by
  rw [Option.isSome_iff_exists, Paging.translate]
  simp only [h.follow_eq_some (show (7 : Word) &&& 7 = 7 by decide) (by decide)
    (by simp [path]) hbase,
    open_seven, exists_and_right]
  refine and_congr_left fun _ => ?_
  rw [← Option.isSome_iff_exists, frameAt, if_neg (by simp [path]), Option.isSome_map]

omit hbase in
/-- A page that was not entered is still found through an entry that was left over. -/
lemma translate_none (hnone : T (path a) = none) : translate 1 s.mem r a = none ↔
    frameAt r T [shift a 39, shift a 30, shift a 21] = none ∨ ¬Present (base (path a)) := by
  have hfollow : ∀ g, follow (links 1 s.mem) r [shift a 39, shift a 30, shift a 21] = some g ↔
      frameAt r T [shift a 39, shift a 30, shift a 21] = some g := by
    intro g
    rw [h.follow_eq_some (show (1 : Word) &&& 7 = 1 by decide) (by decide) (by simp)
      (Or.inr (h.inner _ (by simp)))]
    exact and_iff_left open_one
  have hpath : path a = [shift a 39, shift a 30, shift a 21] ++ [shift a 12] := rfl
  rw [Paging.translate, hpath, follow_snoc, Option.ext hfollow]
  cases hg : frameAt r T [shift a 39, shift a 30, shift a 21] with
  | none => simp only [Option.bind_none, true_or]
  | some g =>
    have hword := h.words _ (shift a 12) g (by simp) hg
    rw [← hpath, hnone] at hword
    change s.mem g (shift a 12) = base (path a) at hword
    rw [Option.bind_some, links, hword, ← hpath, Paging.present_iff]
    simp

end Accesses

section Intended

def codePage (ctx : ExecContext) : Word := (ctx.mms .code).start
def stackPage (ctx : ExecContext) : Word := (ctx.mms .stack).limit - 0x1000
def dataPage (ctx : ExecContext) : Word := (ctx.mms .data).start

/-- The three pages of a process are different 48-bit pages. -/
structure Apart (ctx : ExecContext) : Prop where
  codeStack : page (codePage ctx) ≠ page (stackPage ctx)
  codeData : page (codePage ctx) ≠ page (dataPage ctx)
  stackData : page (stackPage ctx) ≠ page (dataPage ctx)

/-- So are the paths to them. -/
lemma Apart.paths_ne {ctx : ExecContext} (h : Apart ctx) :
    path (codePage ctx) ≠ path (stackPage ctx) ∧ path (codePage ctx) ≠ path (dataPage ctx) ∧
      path (stackPage ctx) ≠ path (dataPage ctx) :=
  ⟨fun heq => h.codeStack (path_inj.mp heq), fun heq => h.codeData (path_inj.mp heq),
    fun heq => h.stackData (path_inj.mp heq)⟩

/-- The address space a process should have: its three pages and no others, behind entries that
are open to the user at every level, and open to writes at every level where its segment is. -/
structure Intended (ctx : ExecContext) (s : State) (pgd : Frame) : Prop where
  present : ∀ a, (translate 1 s.mem pgd a).isSome ↔
    page a = page (codePage ctx) ∨ page a = page (stackPage ctx) ∨ page a = page (dataPage ctx)
  code : ∃ f, translate 5 s.mem pgd (codePage ctx) = some f ∧ (.user, f) ∈ s.taken
  stack : ∃ f, translate 5 s.mem pgd (stackPage ctx) = some f ∧ (.user, f) ∈ s.taken
  apart : translate 5 s.mem pgd (codePage ctx) ≠ translate 5 s.mem pgd (stackPage ctx)
  data : translate 5 s.mem pgd (dataPage ctx) = some ctx.argPfn
  codeWrite : (translate 7 s.mem pgd (codePage ctx)).isSome ↔
    mayWrite (ctx.mms .code).accessFlags
  stackWrite : (translate 7 s.mem pgd (stackPage ctx)).isSome ↔
    mayWrite (ctx.mms .stack).accessFlags
  dataWrite : (translate 7 s.mem pgd (dataPage ctx)).isSome ↔
    mayWrite (ctx.mms .data).accessFlags

variable {ctx : ExecContext} {wc ws wd : List Index → Bool} {fc fs fd : Frame}

/-- The address space is the intended one when nothing else is mapped, the data page is the one
given, and the way to it is open to writes when its segment is. -/
theorem intended_iff (h : Built frames s r T base pages)
    (hT : ThreePaths T (path (codePage ctx)) (path (stackPage ctx)) (path (dataPage ctx))
      wc ws wd fc fs fd) (hctx : Apart ctx) (hfc : fc ∈ pages) (hfs : fs ∈ pages) (hne : fc ≠ fs)
    (hwc : ∀ q, wc q = mayWrite (ctx.mms .code).accessFlags)
    (hws : ∀ q, ws q = mayWrite (ctx.mms .stack).accessFlags) :
    Intended ctx s r ↔ (∀ a, T (path a) = none → translate 1 s.mem r a = none) ∧
      fd = ctx.argPfn ∧ ((∀ p, p ≠ [] → p <+: path (dataPage ctx) → PathTables.flagged T p) ↔
        mayWrite (ctx.mms .data).accessFlags) := by
  obtain ⟨hcodeStack, hcodeData, hstackData⟩ := hctx.paths_ne
  have hsome : ∀ a, (T (path a)).isSome ↔
      page a = page (codePage ctx) ∨ page a = page (stackPage ctx) ∨
        page a = page (dataPage ctx) := by
    intro a
    rw [hT.isSome_four rfl rfl rfl rfl, path_inj, path_inj, path_inj]
  have hcode : (T (path (codePage ctx))).isSome := (hsome _).mpr (Or.inl rfl)
  have hstack : (T (path (stackPage ctx))).isSome := (hsome _).mpr (Or.inr (Or.inl rfl))
  have hdata : (T (path (dataPage ctx))).isSome := (hsome _).mpr (Or.inr (Or.inr rfl))
  have hread : ∀ a, (T (path a)).isSome → ∀ need : Word, need = 1 ∨ need = 5 →
      translate need s.mem r a = (T (path a)).map Prod.fst :=
    fun a ha need hneed => translate_read h (Or.inl ha) hneed
  have hcodeWrite : (translate 7 s.mem r (codePage ctx)).isSome ↔
      mayWrite (ctx.mms .code).accessFlags := by
    rw [translate_write h (Or.inl hcode), and_iff_right hcode]
    exact hT.flagged_first rfl rfl rfl hcodeStack hcodeData hwc
  have hstackWrite : (translate 7 s.mem r (stackPage ctx)).isSome ↔
      mayWrite (ctx.mms .stack).accessFlags := by
    rw [translate_write h (Or.inl hstack), and_iff_right hstack]
    exact hT.rotate.flagged_first rfl rfl rfl hstackData hcodeStack.symm hws
  have hdataWrite := translate_write h (Or.inl hdata)
  rw [and_iff_right hdata] at hdataWrite
  constructor
  · intro hint
    refine ⟨fun a ha => ?_, ?_, hdataWrite.symm.trans hint.dataWrite⟩
    · rw [← Option.not_isSome_iff_eq_none, hint.present a, ← hsome, ha]
      nofun
    · rw [← Option.some.injEq, ← hint.data, hread _ hdata 5 (Or.inr rfl), hT.third]
  · rintro ⟨hpresent, rfl, hwrite⟩
    refine ⟨fun a => ?_, ⟨fc, ?_, ?_⟩, ⟨fs, ?_, ?_⟩, ?_, ?_, hcodeWrite, hstackWrite,
      hdataWrite.trans hwrite⟩
    · rw [← hsome]
      cases ha : T (path a) with
      | none =>
        rw [hpresent a ha]
        exact iff_of_false nofun nofun
      | some x =>
        rw [hread a (by rw [ha]; rfl) 1 (Or.inl rfl), ha]
        rfl
    · rw [hread _ hcode 5 (Or.inr rfl), hT.first]
    · exact h.taken_page_iff.mpr hfc
    · rw [hread _ hstack 5 (Or.inr rfl), hT.second]
    · exact h.taken_page_iff.mpr hfs
    · rw [hread _ hcode 5 (Or.inr rfl), hread _ hstack 5 (Or.inr rfl), hT.first, hT.second]
      exact fun heq => hne (Option.some.inj heq)
    · rw [hread _ hdata 5 (Or.inr rfl), hT.third]

/-- No table or page is behind two entries that are reached. -/
def Unshared (mem : Memory) (pgd : Frame) : Prop :=
  ∀ p q f g i j t, p.length < 4 → q.length < 4 → follow (links 1 mem) pgd p = some f →
    follow (links 1 mem) pgd q = some g → links 1 mem f i = some t → links 1 mem g j = some t →
    f = g ∧ i = j

/-- Different pages behind tables that are all different. -/
theorem unshared_of_built (h : Built frames s r T (fun _ => 0) pages) (hf : Supply frames)
    (hn : s.taken.length ≤ 12)
    (hpages : ∀ q f, q.length = 4 → (T q).map Prod.fst = some f → ∀ k < 12, f = frames k →
      f ∈ pages)
    (hinj : ∀ p q f, p.length = 4 → q.length = 4 → (T p).map Prod.fst = some f →
      (T q).map Prod.fst = some f → p = q) : Unshared s.mem r := by
  have hfollow : ∀ q f, q.length ≤ 4 → follow (links 1 s.mem) r q = some f →
    frameAt r T q = some f :=
    fun q f hq hfol => ((h.follow_eq_some (by decide) (by decide) hq (Or.inr rfl)).mp hfol).1
  have hlast : ∀ p q f, p.length < 4 → q.length = 4 → frameAt r T p = some f →
      frameAt r T q ≠ some f := by
    intro p q f hp hq hpf hqf
    obtain ⟨k, hk, hreply⟩ := h.taken_reply ((h.taken (.osPt, f)).mpr
      (Or.inl ⟨p, f, hp, hpf, rfl⟩))
    rw [frameAt, if_neg (by rw [List.isEmpty_iff]; rintro rfl; cases hq)] at hqf
    exact h.table_ne_page hf hn hp hpf (hpages q f hq hqf k (by omega) hreply)
  have hunique : ∀ p q f, p.length ≤ 4 → q.length ≤ 4 → frameAt r T p = some f →
      frameAt r T q = some f → p = q := by
    intro p q f hp hq hpf hqf
    rcases Nat.lt_or_ge p.length 4 with hp' | hp' <;> rcases Nat.lt_or_ge q.length 4 with hq' | hq'
    · exact h.apart p q f hp' hq' hpf hqf
    · exact absurd hqf (hlast p q f hp' (by omega) hpf)
    · exact absurd hpf (hlast q p f hq' (by omega) hqf)
    · rw [frameAt, if_neg (by rw [List.isEmpty_iff]; rintro rfl; cases hp')] at hpf
      rw [frameAt, if_neg (by rw [List.isEmpty_iff]; rintro rfl; cases hq')] at hqf
      exact hinj p q f (by omega) (by omega) hpf hqf
  intro p q f g i j t hp hq hpf hqg hi hj
  have hpt := hfollow (p ++ [i]) t (by simp; omega) ((follow_snoc_of hpf).trans hi)
  have hqt := hfollow (q ++ [j]) t (by simp; omega) ((follow_snoc_of hqg).trans hj)
  obtain ⟨rfl, hij⟩ := List.append_inj' (hunique _ _ t (by simp; omega) (by simp; omega)
    hpt hqt) rfl
  rw [hpf, Option.some.injEq] at hqg
  exact ⟨hqg, List.singleton_injective hij⟩

end Intended

section Examples

/-- Frames handed out in order. -/
def inOrder (n : ℕ) : Frame := BitVec.ofNat 32 (n + 1)

lemma inOrder_toNat {n : ℕ} (hn : n < 12) : (inOrder n).toNat = n + 1 := by
  rw [inOrder, BitVec.toNat_ofNat]
  omega

lemma inOrder_supply : Supply inOrder := by
  refine ⟨fun i j hi hj h => ?_, fun i hi => ?_⟩
  · have hnat := congrArg BitVec.toNat h
    rw [inOrder_toNat hi, inOrder_toNat hj] at hnat
    omega
  · rw [inOrder_toNat hi]
    omega

lemma inOrder_ne_zero {n : ℕ} (hn : n < 12) : inOrder n ≠ 0 := by
  intro h
  have hnat := congrArg BitVec.toNat h
  rw [inOrder_toNat hn] at hnat
  cases hnat

/-- A process with its segments at the usual places. -/
def typical : ExecContext where
  pgd := 0
  argPfn := 64
  mms
    | .code => ⟨0x100000000, 0x100001000, 5⟩
    | .rodata => ⟨0x140000000, 0x140001000, 1⟩
    | .data => ⟨0x180000000, 0x180001000, 3⟩
    | .stack => ⟨0x7FF000000, 0x800000000, 3⟩

lemma typical_apart : Apart typical := ⟨by decide, by decide, by decide⟩

lemma inOrder_ne_argPfn {n : ℕ} (hn : n < 12) : inOrder n ≠ typical.argPfn := by
  intro h
  have hnat := congrArg BitVec.toNat h
  rw [inOrder_toNat hn] at hnat
  have : typical.argPfn.toNat = 64 := rfl
  omega

end Examples

end OsAssignments.AddressSpace
