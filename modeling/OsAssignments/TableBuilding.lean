import OsAssignments.AddressSpace
import OsAssignments.PageTables
import OsAssignments.PathTables

/-!
# Building a page table

The tables in memory and the abstract table by paths: each entry of a table that is
reached holds the frame that its path leads to, and the bits for its flag. Entering
a new table, a page, or more bits in an entry marks one path.
-/
namespace OsAssignments.AddressSpace

open Paging (Word Frame Index Memory Region Present pfn links entryFor)
open RadixTree PathTables

variable {frames : ℕ → Frame} {s s' : State} {r frame f g : Frame} {p q : List Index} {i j : Index}
variable {T : PathTable Frame Index} {base base' : List Index → Word} {pages : List Frame}
variable {w code : Word} {c d : Bool} {region : Region}

section Words

/-- The low bits of an entry: present, open to the user, and perhaps writable. -/
def bits (c : Bool) : Word := if c then 7 else 5

lemma bits_toNat_lt (c : Bool) : (bits c).toNat < 4096 := by cases c <;> decide

lemma bits_and_seven (c : Bool) : bits c &&& 7 = bits c := by cases c <;> decide

/-- Whether a segment may be written. -/
def mayWrite (flags : BitVec 32) : Bool := decide (flags &&& 2 ≠ 0)

lemma and_seven_toNat : (w &&& 7).toNat = w.toNat % 8 := by
  rw [BitVec.toNat_and]
  exact Nat.and_two_pow_sub_one_eq_mod _ 3

lemma entryFor_and_seven (hcode : code.toNat < 4096) : entryFor code f &&& 7 = code &&& 7 := by
  rw [← BitVec.toNat_inj, and_seven_toNat, and_seven_toNat, Paging.entryFor_toNat hcode]
  omega

lemma present_of_bits (h : w &&& 7 = bits c) : Present w := by
  have hbits : (bits c).toNat % 2 = 1 := by cases c <;> rfl
  rw [Paging.present_toNat, ← Nat.mod_mod_of_dvd w.toNat (by norm_num : 2 ∣ 8),
    ← and_seven_toNat, h, hbits]

/-- What an access that needs some bits finds behind an entry. -/
lemma links_of_bits {mem : Memory} {need : Word} (hneed : need &&& 7 = need)
    (h : mem f i &&& 7 = bits c) :
    links need mem f i = if bits c &&& need = need then some (pfn (mem f i)) else none := by
  have hand : mem f i &&& need = bits c &&& need := by
    rw [← h, BitVec.and_assoc, BitVec.and_comm 7 need, hneed]
  rw [links, hand]

end Words

section Stores

lemma store_mem_self : (s.store f i w).mem f i = w := by
  simp only [State.store, Function.update_self]

lemma store_mem_ne (h : ¬(g = f ∧ j = i)) : (s.store f i w).mem g j = s.mem g j := by
  by_cases hg : g = f
  · subst hg
    simp only [State.store, Function.update_self, Function.update_of_ne fun hj => h ⟨rfl, hj⟩]
  · simp only [State.store, Function.update_of_ne hg]

@[simp] lemma store_taken : (s.store f i w).taken = s.taken := rfl

lemma store_mem_frame (h : g ≠ f) : (s.store f i w).mem g = s.mem g :=
  Function.update_of_ne h _ _

/-- Clearing all words of a frame. -/
theorem zeroWords_eq : s.zeroWords f 512 =
    { s with mem := Function.update s.mem f fun _ => 0 } := by
  have hloop : ∀ n ≤ 512, s.zeroWords f n = { s with
      mem := Function.update s.mem f fun j => if j.toNat < n then 0 else s.mem f j } := by
    intro n hn
    induction n with
    | zero => simp [State.zeroWords]
    | succ n ih =>
      have hnext : s.zeroWords f (n + 1) = (s.zeroWords f n).store f (BitVec.ofNat 9 n) 0 := by
        rw [State.zeroWords, List.range_succ, List.foldl_append, ← State.zeroWords]
        rfl
      rw [hnext, ih (by omega), State.store]
      congr 1
      funext g j
      by_cases hg : g = f
      · subst hg
        simp only [Function.update_self]
        by_cases hj : j = BitVec.ofNat 9 n
        · subst hj
          rw [Function.update_self, if_pos]
          rw [BitVec.toNat_ofNat]
          omega
        · have hne : j.toNat ≠ n := by
            rintro rfl
            exact hj (by simp)
          rw [Function.update_of_ne hj]
          split_ifs <;> first | rfl | omega
      · simp only [Function.update_of_ne hg]
  rw [hloop 512 le_rfl]
  congr 2
  funext j
  exact if_pos j.isLt

/-- Clearing a frame leaves the others. -/
lemma zeroWords_spec : (∀ g, g ≠ f → (s.zeroWords f 512).mem g = s.mem g) ∧
    (∀ j, (s.zeroWords f 512).mem f j = 0) ∧ (s.zeroWords f 512).taken = s.taken ∧
    (s.zeroWords f 512).freed = s.freed := by
  rw [zeroWords_eq]
  exact ⟨fun g hg => Function.update_of_ne hg _ _,
    fun j => congrFun (Function.update_self f (fun _ => 0) s.mem) j, rfl, rfl⟩

lemma osPfnAlloc_length :
    (osPfnAlloc frames region s).2.taken.length = s.taken.length + 1 := by
  simp only [osPfnAlloc, List.length_append, List.length_singleton]

lemma osPfnAlloc_freed : (osPfnAlloc frames region s).2.freed = s.freed := rfl

end Stores

section Handing

/-- What the replies of `os_pfn_alloc` are relied on for; at most 12 frames are asked for. -/
structure Supply (frames : ℕ → Frame) : Prop where
  distinct : ∀ i j, i < 12 → j < 12 → frames i = frames j → i = j
  below : ∀ i, i < 12 → (frames i).toNat < 2 ^ 20

/-- The word of an entry, by what stands behind its path; `w₀` where nothing does. -/
def Holds (w₀ : Word) : Option (Frame × Bool) → Word → Prop
  | none, w => w = w₀
  | some (f, c), w => w &&& 7 = bits c ∧ pfn w = f

/-- An access with some needs is let through on the way to a table or page. -/
def Open (T : PathTable Frame Index) (need : Word) (q : List Index) : Prop :=
  ∀ p, p ≠ [] → p <+: q → bits (flagged T p) &&& need = need

lemma open_snoc {need : Word} :
    Open T need (q ++ [i]) ↔ Open T need q ∧ bits (flagged T (q ++ [i])) &&& need = need := by
  constructor
  · intro h
    exact ⟨fun p hp hpre => h p hp (hpre.trans (List.prefix_append q [i])),
      h _ (by simp) (List.prefix_refl _)⟩
  · rintro ⟨h, hlast⟩ p hp hpre
    rcases List.prefix_concat_iff.mp hpre with rfl | hpre
    · exact hlast
    · exact h p hp hpre

/-- The tables of a state are those of the abstract table: `base` tells the words of the
entries that were not made, and `pages` the frames handed out for pages. -/
structure Built (frames : ℕ → Frame) (s : State) (r : Frame) (T : PathTable Frame Index)
    (base : List Index → Word) (pages : List Frame) : Prop where
  words : ∀ p i f, p.length < 4 → frameAt r T p = some f →
    Holds (base (p ++ [i])) (T (p ++ [i])) (s.mem f i)
  closed : ∀ p i, (T (p ++ [i])).isSome → (frameAt r T p).isSome
  apart : ∀ p q f, p.length < 4 → q.length < 4 → frameAt r T p = some f →
    frameAt r T q = some f → p = q
  taken : ∀ x, x ∈ s.taken ↔
    (∃ p f, p.length < 4 ∧ frameAt r T p = some f ∧ x = (.osPt, f)) ∨ ∃ f ∈ pages, x = (.user, f)
  log : s.taken.map Prod.snd = (List.range s.taken.length).map frames
  nodup : pages.Nodup
  freed : s.freed = []
  inner : ∀ q, q.length < 4 → base q = 0
  bare : ∀ q i, T q = none → base (q ++ [i]) = 0

namespace Built

/-- What is handed out is one of the replies. -/
lemma taken_reply (h : Built frames s r T base pages) {x : Region × Frame} (hx : x ∈ s.taken) :
    ∃ k < s.taken.length, x.2 = frames k := by
  have hmem : x.2 ∈ s.taken.map Prod.snd := List.mem_map_of_mem hx
  rw [h.log, List.mem_map] at hmem
  obtain ⟨k, hk, heq⟩ := hmem
  exact ⟨k, List.mem_range.mp hk, heq.symm⟩

/-- What is none of the replies was not handed out. -/
lemma taken_ne (h : Built frames s r T base pages) (hn : s.taken.length ≤ 12)
    (hg : ∀ i, i < 12 → frames i ≠ g) {x : Region × Frame} (hx : x ∈ s.taken) : x.2 ≠ g := by
  obtain ⟨k, hk, heq⟩ := h.taken_reply hx
  rw [heq]
  exact hg k (by omega)

/-- The next frame is none of those handed out. -/
lemma next_ne (h : Built frames s r T base pages) (hf : Supply frames) (hn : s.taken.length < 12)
    {x : Region × Frame} (hx : x ∈ s.taken) : x.2 ≠ frames s.taken.length := by
  obtain ⟨k, hk, heq⟩ := h.taken_reply hx
  rw [heq]
  intro hsame
  have := hf.distinct k _ (by omega) hn hsame
  omega

/-- The test of an entry that is not left over says whether its path was entered. -/
lemma present_iff (h : Built frames s r T base pages) (hp : frameAt r T p = some frame)
    (hn : p.length < 4) (hbase : base (p ++ [i]) = 0) :
    Present (s.mem frame i) ↔ (T (p ++ [i])).isSome := by
  have hword := h.words p i frame hn hp
  cases hT : T (p ++ [i]) with
  | none =>
    rw [hT, Holds, hbase] at hword
    rw [hword]
    exact iff_of_false Paging.not_present_zero nofun
  | some x =>
    rw [hT] at hword
    exact iff_of_true (present_of_bits hword.1) rfl

/-- No frame is handed out twice. -/
lemma nodup_taken (h : Built frames s r T base pages) (hf : Supply frames)
    (hn : s.taken.length ≤ 12) : (s.taken.map Prod.snd).Nodup := by
  rw [h.log]
  refine (List.nodup_range).map_on fun i hi j hj heq => ?_
  rw [List.mem_range] at hi hj
  exact hf.distinct i j (by omega) (by omega) heq

/-- A frame is not both a table and a page. -/
lemma table_ne_page (h : Built frames s r T base pages) (hf : Supply frames)
    (hn : s.taken.length ≤ 12) (hp : p.length < 4) (hfp : frameAt r T p = some f) : f ∉ pages := by
  intro hpage
  have htable := (h.taken (.osPt, f)).mpr (Or.inl ⟨p, f, hp, hfp, rfl⟩)
  have huser := (h.taken (.user, f)).mpr (Or.inr ⟨f, hpage, rfl⟩)
  cases List.inj_on_of_nodup_map (h.nodup_taken hf hn) htable huser rfl

/-- What is handed out for pages. -/
lemma taken_page_iff (h : Built frames s r T base pages) : (.user, f) ∈ s.taken ↔ f ∈ pages := by
  rw [h.taken]
  constructor
  · rintro (⟨p, g, -, -, heq⟩ | ⟨g, hg, heq⟩)
    · cases heq
    · cases heq
      exact hg
  · intro hf
    exact Or.inr ⟨f, hf, rfl⟩

lemma table_ne_next (h : Built frames s r T base pages) (hf : Supply frames)
    (hn : s.taken.length < 12) (hp : p.length < 4) (hg : frameAt r T p = some g) :
    g ≠ frames s.taken.length :=
  h.next_ne hf hn ((h.taken (.osPt, g)).mpr (Or.inl ⟨p, g, hp, hg, rfl⟩))

/-- The log once one more frame is handed out. -/
lemma log_next (h : Built frames s r T base pages) :
    (osPfnAlloc frames region s).2.taken.map Prod.snd =
      (List.range (osPfnAlloc frames region s).2.taken.length).map frames := by
  simp only [osPfnAlloc, List.map_append, h.log, List.length_append, List.range_succ,
    List.map_cons, List.map_nil, List.length_singleton]

/-- An entry of another cell than the one that is marked. -/
lemma mark_other (hp : frameAt r T p = some frame) (hq : frameAt r T q = some g)
    (hcell : ¬(g = frame ∧ j = i)) : mark T (p ++ [i]) f c (q ++ [j]) = T (q ++ [j]) := by
  refine mark_of_ne fun heq => hcell ?_
  obtain ⟨rfl, hji⟩ := List.append_inj' heq rfl
  rw [hp, Option.some.injEq] at hq
  exact ⟨hq.symm, List.singleton_injective hji⟩

/-- The way to a marked entry is there. -/
lemma closed_mark (h : Built frames s r T base pages) (hp : frameAt r T p = some frame)
    (hq : (mark T (p ++ [i]) f c (q ++ [j])).isSome) :
    (frameAt r (mark T (p ++ [i]) f c) q).isSome := by
  by_cases hqp : q = p ++ [i]
  · rw [hqp, frameAt_mark_self (by simp)]
    rfl
  · rw [frameAt_mark_of_ne hqp]
    rcases isSome_mark.mp hq with heq | hsome
    · rw [(List.append_inj' heq rfl).1, hp]
      rfl
    · exact h.closed q j hsome

/-- An entry that names the table it named, or an entry of a last table, gets a new word. -/
theorem set (h : Built frames s r T base pages) (hp : frameAt r T p = some frame)
    (hn : p.length < 4) (hsame : p.length + 1 = 4 ∨ (T (p ++ [i])).map Prod.fst = some f)
    (hbits : w &&& 7 = bits (flagged T (p ++ [i]) || c)) (hpfn : pfn w = f) :
    Built frames (s.store frame i w) r (mark T (p ++ [i]) f c) base pages := by
  have hframe : ∀ q : List Index, q.length < 4 →
      frameAt r (mark T (p ++ [i]) f c) q = frameAt r T q := by
    intro q hq
    by_cases hqp : q = p ++ [i]
    · subst hqp
      rw [List.length_append, List.length_singleton] at hq
      rw [frameAt_snoc, frameAt_snoc, mark_self, hsame.resolve_left (by omega), Option.map_some]
    · exact frameAt_mark_of_ne hqp
  refine ⟨fun q j g hq hg => ?_, fun q j hq => h.closed_mark hp hq,
    fun q q' g hq hq' hg hg' => ?_, fun x => ?_, h.log, h.nodup, h.freed, h.inner,
    fun q j hq => ?_⟩
  · rw [hframe q hq] at hg
    by_cases hcell : g = frame ∧ j = i
    · obtain ⟨rfl, rfl⟩ := hcell
      rw [h.apart q p g hq hn hg hp, mark_self, store_mem_self]
      exact ⟨hbits, hpfn⟩
    · rw [store_mem_ne hcell, mark_other hp hg hcell]
      exact h.words q j g hq hg
  · rw [hframe q hq] at hg
    rw [hframe q' hq'] at hg'
    exact h.apart q q' g hq hq' hg hg'
  · refine (h.taken x).trans (or_congr_left (exists_congr fun q => exists_congr fun g => ?_))
    exact and_congr_right fun hq => by rw [hframe q hq]
  · exact h.bare q j (of_mark_eq_none hq).2

/-- A new table is entered; its own words are what it is handed out with, or cleared to. -/
theorem give (h : Built frames s r T base pages) (hf : Supply frames) (hn : s.taken.length < 12)
    (hp : frameAt r T p = some frame) (hlen : p.length < 3) (hnone : T (p ++ [i]) = none)
    (hmem : ∀ g, g ≠ frames s.taken.length → s'.mem g = s.mem g)
    (htaken : s'.taken = (osPfnAlloc frames .osPt s).2.taken) (hfreed : s'.freed = s.freed)
    (hnew : ∀ j, base' (p ++ [i] ++ [j]) = s'.mem (frames s.taken.length) j)
    (hclear : p.length = 2 ∨ ∀ j, s'.mem (frames s.taken.length) j = 0)
    (hold : ∀ q j, q ≠ p ++ [i] → base' (q ++ [j]) = base (q ++ [j])) (hnil : base' [] = 0)
    (hbits : w &&& 7 = bits c) (hpfn : pfn w = frames s.taken.length) :
    Built frames (s'.store frame i w) r (mark T (p ++ [i]) (frames s.taken.length) c) base'
      pages := by
  have hlen' : (p ++ [i]).length = p.length + 1 := by rw [List.length_append, List.length_singleton]
  have hfresh : ∀ q g, q.length < 4 → frameAt r T q = some g → g ≠ frames s.taken.length :=
    fun q g hq hg => h.table_ne_next hf hn hq hg
  have hbare : ∀ j, T (p ++ [i] ++ [j]) = none := by
    intro j
    by_contra hsome
    have hclosed := h.closed (p ++ [i]) j (Option.isSome_iff_ne_none.mpr hsome)
    rw [frameAt_snoc, hnone] at hclosed
    cases hclosed
  have hcases : ∀ q g, frameAt r (mark T (p ++ [i]) (frames s.taken.length) c) q = some g →
      q = p ++ [i] ∧ g = frames s.taken.length ∨ q ≠ p ++ [i] ∧ frameAt r T q = some g := by
    intro q g hg
    by_cases hq : q = p ++ [i]
    · rw [hq, frameAt_mark_self (by simp), Option.some.injEq] at hg
      exact Or.inl ⟨hq, hg.symm⟩
    · rw [frameAt_mark_of_ne hq] at hg
      exact Or.inr ⟨hq, hg⟩
  refine ⟨fun q j g hq hg => ?_, fun q j hq => h.closed_mark hp hq,
    fun q q' g hq hq' hg hg' => ?_, fun x => ?_, ?_, h.nodup, hfreed.trans h.freed,
    fun q hq => ?_, fun q j hq => ?_⟩
  · rcases hcases q g hg with ⟨rfl, rfl⟩ | ⟨hqp, hgold⟩
    · rw [store_mem_ne fun heq => hfresh p frame (by omega) hp heq.1.symm, mark_of_ne (by simp),
        hbare j, hnew j]
      rfl
    · by_cases hcell : g = frame ∧ j = i
      · obtain ⟨rfl, rfl⟩ := hcell
        rw [h.apart q p g hq (by omega) hgold hp, mark_self, store_mem_self]
        refine ⟨?_, hpfn⟩
        rw [hbits, flagged, hnone]
        rfl
      · rw [store_mem_ne hcell, hmem g (hfresh q g hq hgold), mark_other hp hgold hcell,
          hold q j hqp]
        exact h.words q j g hq hgold
  · rcases hcases q g hg with ⟨rfl, rfl⟩ | ⟨-, hg⟩
    · rcases hcases q' _ hg' with ⟨rfl, -⟩ | ⟨-, hg'⟩
      · rfl
      · exact absurd rfl (hfresh q' _ hq' hg')
    · rcases hcases q' g hg' with ⟨rfl, rfl⟩ | ⟨-, hg'⟩
      · exact absurd rfl (hfresh q _ hq hg)
      · exact h.apart q q' g hq hq' hg hg'
  · change x ∈ s'.taken ↔ _
    rw [htaken]
    simp only [osPfnAlloc, List.mem_append, List.mem_singleton, h.taken x]
    constructor
    · rintro ((⟨q, g, hq, hg, rfl⟩ | hpage) | rfl)
      · refine Or.inl ⟨q, g, hq, ?_, rfl⟩
        rw [frameAt_mark_of_ne, hg]
        rintro rfl
        rw [frameAt_snoc, hnone] at hg
        cases hg
      · exact Or.inr hpage
      · exact Or.inl ⟨p ++ [i], _, by omega, frameAt_mark_self (by simp), rfl⟩
    · rintro (⟨q, g, hq, hg, rfl⟩ | hpage)
      · rcases hcases q g hg with ⟨-, rfl⟩ | ⟨-, hg⟩
        · exact Or.inr rfl
        · exact Or.inl (Or.inl ⟨q, g, hq, hg, rfl⟩)
      · exact Or.inl (Or.inr hpage)
  · change s'.taken.map Prod.snd = (List.range s'.taken.length).map frames
    rw [htaken]
    exact h.log_next
  · induction q using List.reverseRecOn with
    | nil => exact hnil
    | append_singleton q j _ =>
      by_cases hqp : q = p ++ [i]
      · rw [hqp, List.length_append, List.length_singleton, hlen'] at hq
        rw [hqp, hnew j]
        exact hclear.resolve_left (by omega) j
      · rw [hold q j hqp]
        exact h.inner _ hq
  · obtain ⟨hqp, hq⟩ := of_mark_eq_none hq
    rw [hold q j hqp]
    exact h.bare q j hq

/-- A frame is handed out for a page. -/
theorem takePage (h : Built frames s r T base pages) (hf : Supply frames)
    (hn : s.taken.length < 12) (hmem : ∀ g, g ≠ frames s.taken.length → s'.mem g = s.mem g)
    (htaken : s'.taken = (osPfnAlloc frames .user s).2.taken) (hfreed : s'.freed = s.freed) :
    Built frames s' r T base (pages ++ [frames s.taken.length]) := by
  refine ⟨fun p i f hp hg => ?_, h.closed, h.apart, fun x => ?_, ?_, ?_, hfreed.trans h.freed,
    h.inner, h.bare⟩
  · rw [hmem f (h.table_ne_next hf hn hp hg)]
    exact h.words p i f hp hg
  · rw [htaken]
    simp only [osPfnAlloc, List.mem_append, List.mem_singleton, h.taken x, or_assoc]
    refine or_congr_right ⟨?_, ?_⟩
    · rintro (⟨f, hmem, rfl⟩ | rfl)
      · exact ⟨f, Or.inl hmem, rfl⟩
      · exact ⟨_, Or.inr rfl, rfl⟩
    · rintro ⟨f, hmem | rfl, rfl⟩
      · exact Or.inl ⟨f, hmem, rfl⟩
      · exact Or.inr rfl
  · rw [htaken]
    exact h.log_next
  · refine List.nodup_append.mpr ⟨h.nodup, List.nodup_singleton _, fun g hg g' hg' => ?_⟩
    rw [List.mem_singleton.mp hg']
    exact h.next_ne hf hn (h.taken_page_iff.mpr hg)

/-- Where an access gets to, by the abstract table. -/
theorem follow_eq_some (h : Built frames s r T base pages) {need : Word}
    (hneed : need &&& 7 = need) (hpres : need &&& 1 = 1) (hq : q.length ≤ 4)
    (hbase : (T q).isSome ∨ base q = 0) :
    follow (links need s.mem) r q = some f ↔ frameAt r T q = some f ∧ Open T need q := by
  induction q using List.reverseRecOn generalizing f with
  | nil =>
    rw [frameAt_nil, follow]
    refine (and_iff_left ?_).symm
    intro p hp hpre
    exact absurd (List.prefix_nil.mp hpre) hp
  | append_singleton p i ih =>
    have hlen : p.length < 4 := by
      rw [List.length_append, List.length_singleton] at hq
      omega
    have hp := fun g => @ih g hlen.le (Or.inr (h.inner p hlen))
    rw [follow_snoc, Option.bind_eq_some_iff, open_snoc, frameAt_snoc]
    simp only [hp]
    constructor
    · rintro ⟨g, ⟨hg, hopen⟩, hlink⟩
      have hword := h.words p i g hlen hg
      cases hT : T (p ++ [i]) with
      | none =>
        rw [hT, Holds, hbase.resolve_left (by rw [hT]; exact Bool.false_ne_true)] at hword
        rw [Paging.links_of_not_present hpres (by rw [hword]; exact
          Paging.not_present_zero)] at hlink
        cases hlink
      | some x =>
        rw [hT] at hword
        rw [links_of_bits hneed hword.1] at hlink
        split_ifs at hlink with hbits
        rw [Option.some.injEq, hword.2] at hlink
        refine ⟨congrArg some hlink, hopen, ?_⟩
        rw [flagged, hT]
        exact hbits
    · rintro ⟨hf, hopen, hbits⟩
      obtain ⟨x, hT, rfl⟩ := Option.map_eq_some_iff.mp hf
      obtain ⟨g, hg⟩ := Option.isSome_iff_exists.mp (h.closed p i (by rw [hT]; rfl))
      have hword := h.words p i g hlen hg
      rw [hT] at hword
      rw [flagged, hT, Option.any_some] at hbits
      refine ⟨g, ⟨hg, hopen⟩, ?_⟩
      rw [links_of_bits hneed hword.1, if_pos hbits, hword.2]

end Built

/-- The top table alone. -/
theorem built_nil (hmem : ∀ i, s.mem (frames 0) i = 0) (htaken : s.taken = [(.osPt, frames 0)])
    (hfreed : s.freed = []) : Built frames s (frames 0) (fun _ => none) (fun _ => 0) [] := by
  have hroot : ∀ p f, frameAt (frames 0) (fun _ => none : PathTable Frame Index) p = some f →
      p = [] ∧ f = frames 0 := by
    intro p f hp
    cases p with
    | nil => exact ⟨rfl, (Option.some.inj hp).symm⟩
    | cons i p => cases hp
  refine ⟨fun p i f _ hp => ?_, fun _ _ h => (nomatch h), fun p q f _ _ hp hq => ?_,
    fun x => ?_, ?_,
    List.nodup_nil, hfreed, fun _ _ => rfl, fun _ _ _ => rfl⟩
  · rw [(hroot p f hp).2]
    exact hmem i
  · rw [(hroot p f hp).1, (hroot q f hq).1]
  · rw [htaken, List.mem_singleton]
    constructor
    · rintro rfl
      exact Or.inl ⟨[], frames 0, by simp, rfl, rfl⟩
    · rintro (⟨p, f, -, hp, rfl⟩ | ⟨f, hf, -⟩)
      · rw [(hroot p f hp).2]
      · cases hf
  · rw [htaken]
    rfl

/-- A step that enters or flags one path, and asks for one frame at most. -/
structure Stepped (frames : ℕ → Frame) (s s' : State) (r : Frame) (T : PathTable Frame Index)
    (base : List Index → Word) (pages : List Frame) (q : List Index) (f : Frame) (c : Bool) :
    Prop where
  built : Built frames s' r (mark T q f c) base pages
  length : s'.taken.length ≤ s.taken.length + 1

/-- The three tables on the way to a page are entered, with flags `w`. -/
structure Walked (frames : ℕ → Frame) (s s' : State) (r : Frame) (T T' : PathTable Frame Index)
    (base : List Index → Word) (pages : List Frame) (a b c : Index) (w : List Index → Bool)
    (f : Frame) : Prop where
  built : Built frames s' r T' base pages
  here : frameAt r T' [a, b, c] = some f
  length : s'.taken.length ≤ s.taken.length + 3
  same : ∀ q, q.length = 4 → T' q = T q
  entered : ∀ d g, Entered T (mark T' [a, b, c, d] g (w [a, b, c, d])) [a, b, c, d] w g

theorem walked_of_stepped {s₁ s₂ s₃ : State} {f₁ f₂ f₃ : Frame} {a b c : Index} {w₁ w₂ w₃ : Bool}
    {v : List Index → Bool} (h₁ : Stepped frames s s₁ r T base' pages [a] f₁ w₁)
    (h₂ : Stepped frames s₁ s₂ r (mark T [a] f₁ w₁) base' pages [a, b] f₂ w₂)
    (h₃ : Stepped frames s₂ s₃ r (mark (mark T [a] f₁ w₁) [a, b] f₂ w₂) base pages [a, b, c] f₃ w₃)
    (hw₁ : v [a] = w₁) (hw₂ : v [a, b] = w₂) (hw₃ : v [a, b, c] = w₃) :
    ∃ T', Walked frames s s₃ r T T' base pages a b c v f₃ := by
  subst hw₁ hw₂ hw₃
  refine ⟨_, h₃.built, frameAt_mark_self (by simp), ?_, fun q hq => ?_, fun _ _ => entered_four⟩
  · have := h₁.length
    have := h₂.length
    have := h₃.length
    omega
  · rw [mark_of_ne, mark_of_ne, mark_of_ne] <;> rintro rfl <;> simp at hq

namespace Walked

variable {a b c d : Index} {T' : PathTable Frame Index} {v : List Index → Bool}

/-- The page at the end of the walk is entered, and nothing is handed out for it. -/
theorem enter (h : Walked frames s s' r T T' base pages a b c v frame)
    (hnone : T [a, b, c, d] = none) (hbits : w &&& 7 = bits (v [a, b, c, d])) :
    Built frames (s'.store frame d w) r (mark T' [a, b, c, d] (pfn w) (v [a, b, c, d])) base
      pages := by
  refine h.built.set (p := [a, b, c]) h.here (by simp) (Or.inl rfl) ?_ rfl
  rw [flagged, List.cons_append, List.cons_append, List.cons_append, List.nil_append,
    h.same _ rfl, hnone, hbits]
  rfl

/-- The page at the end of the walk is handed out and entered. -/
theorem enterNew {s'' : State} (h : Walked frames s s' r T T' base pages a b c v frame)
    (hf : Supply frames) (hn : s'.taken.length < 12) (hnone : T [a, b, c, d] = none)
    (hmem : ∀ g, g ≠ frames s'.taken.length → s''.mem g = s'.mem g)
    (htaken : s''.taken = (osPfnAlloc frames .user s').2.taken) (hfreed : s''.freed = s'.freed)
    (hbits : w &&& 7 = bits (v [a, b, c, d])) :
    Built frames (s''.store frame d w) r (mark T' [a, b, c, d] (pfn w) (v [a, b, c, d])) base
      (pages ++ [frames s'.taken.length]) := by
  have hbuilt := h.built.takePage hf hn hmem htaken hfreed
  refine hbuilt.set (p := [a, b, c]) h.here (by simp) (Or.inl rfl) ?_ rfl
  rw [flagged, List.cons_append, List.cons_append, List.cons_append, List.nil_append,
    h.same _ rfl, hnone, hbits]
  rfl

end Walked

end Handing

end OsAssignments.AddressSpace
