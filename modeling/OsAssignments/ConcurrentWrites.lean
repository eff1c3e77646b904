import OsAssignments.Interleaving
import OsAssignments.StoreRuns

/-!
# Concurrent writers

`objstore_write` in the steps that other threads can come between: the search for a data
block under the lock is one step, while the search for an indirect block, which takes no
lock, tests and sets bit by bit. Writers get different blocks as long as every bit is
still clear when it is set, and no rewrite clears a bit.
-/
namespace OsAssignments.ConcurrentWrites

open ByteMemory Bitmap ObjectTable Builds Interleaving
open Machine (Along run)

variable {ι : Type*} {build : Build} {s s' : Store} {n k b : ℕ} {del : ℤ}

/-- The arguments of one call; the object of slot `n` has the number `n + 2`. -/
structure WriteCall where
  slot : ℕ
  buf : Memory
  size : ℕ
  offset : ℕ

namespace WriteCall

def offie (c : WriteCall) : ℕ := c.offset / blockSize
def alpha (c : WriteCall) : ℕ := (c.offie - 4) / 1024
def alp (c : WriteCall) : ℕ := (c.offie - 4) % 1024

end WriteCall

/-- Where a call stands: before the lock; with its data block; at bit `k` of the search for an
indirect block; with both blocks; or back at its caller. -/
inductive Writer
  | start
  | writing (blk : ℕ)
  | branching (blk : ℕ)
  | testing (blk k : ℕ)
  | setting (blk k : ℕ)
  | hanging (blk : ℕ) (ind : Option ℕ)
  | done (blk : ℕ) (ind : Option ℕ)
  | failed

section Steps

variable (build) (calls : ι → WriteCall)

/-- The next step of one call. -/
def act (i : ι) (s : Store) : Writer → Option (Store × Writer)
  | .start =>
    let c := calls i
    if WriteInBounds s c.slot c.offie c.size then
      let s := s.markDirty c.slot
      match searchFree s with
      | none => some ({ s with lockData := true }, .failed)
      | some f =>
        some ({ s with bitMapData := orWord s.bitMapData f.i f.val }, .writing (f.i * 32 + f.j))
    else none
  | .writing blk =>
    let c := calls i
    some ({ s with dev := storeBlock build s.dev blk (bufferPage c.buf c.size) }, .branching blk)
  | .branching blk =>
    let c := calls i
    if c.offie < 4 then some (writeDirect s c.slot c.offie c.size blk, .done blk none)
    else if indirect s.objs c.slot c.alpha = 0 then some (s, .testing blk 0)
    else some (writeOldIndirect build s c.slot c.alpha c.alp c.size blk, .done blk none)
  | .testing blk k =>
    if k < 32 * dataWords then
      if freeTest (s.bitMapData ((k / 32 : ℕ) : ℤ)) (BitVec.twoPow 32 (k % 32)) k then
        some (s, .setting blk k)
      else some (s, .testing blk (k + 1))
    else some (s, .hanging blk none)
  | .setting blk k => some ({ s with bitMapData := setBit s.bitMapData k }, .hanging blk (some k))
  | .hanging blk ind =>
    let c := calls i
    let number : ℤ := ind.elim (-1) fun k => (k : ℤ)
    let objs := setPointer s.objs c.slot (4 + c.alpha) (writeOffset + number)
    some ({ s with
      dev := storeBlock build s.dev number (setEntry (fun _ => 0) c.alp (writeOffset + blk))
      objs := setSize objs c.slot (objSize objs c.slot + c.size) }, .done blk ind)
  | .done _ _ => none
  | .failed => none

/-- The pointer that a call finds in the place of its block. -/
def oldPointer (c : WriteCall) (s : Store) : ℤ :=
  if c.offie < 4 then direct s.objs c.slot c.offie
  else if indirect s.objs c.slot c.alpha = 0 then 0
  else entry (loadBlock build s.dev (indirect s.objs c.slot c.alpha - writeOffset)).2 c.alp

/-- The bit that a rewrite toggles. -/
def oldBit (w : Words) (del : ℤ) : Bool := (w (del.tdiv 32)).getLsbD (del.tmod 32 % 32).toNat

/-- A bit that a call found clear is still clear when it is set, and a rewrite toggles a bit
that is clear. -/
def Undisturbed (i : ι) (s : Store) : Writer → Prop
  | .setting _ k => bit s.bitMapData k = false
  | .branching _ => oldPointer build (calls i) s = 0 ∨
      oldBit s.bitMapData (oldPointer build (calls i) s) = false
  | _ => True

end Steps

section Blocks

/-- The blocks that a call has obtained. -/
def Writer.blocks : Writer → List ℕ
  | start | failed => []
  | writing blk | branching blk | testing blk _ | setting blk _ => [blk]
  | hanging blk ind | done blk ind => blk :: ind.toList

/-- The blocks that the bitmap counts. -/
def taken (s : Store) : Set ℕ := {b | bit s.bitMapData b = true}

lemma bit_toggleBit_of_clear (h : oldBit s.bitMapData del = false)
    (hb : bit s.bitMapData b = true) : bit (toggleBit s.bitMapData del) b = true := by
  rw [toggleBit, xorWord, bit]
  by_cases hw : ((b / 32 : ℕ) : ℤ) = del.tdiv 32
  · rw [hw, Function.update_self, BitVec.getLsbD_xor, BitVec.getLsbD_twoPow]
    rw [bit, hw] at hb
    rw [hb]
    by_cases hj : (del.tmod 32 % 32).toNat = b % 32
    · rw [oldBit, hj, hb] at h
      cases h
    · simp [hj]
  · rw [Function.update_of_ne hw]
    exact hb

/-- A block that is set is in use from then on. -/
lemma takes_setBit {t t' : Writer} (hb : bit s.bitMapData b = false)
    (hs : s'.bitMapData = setBit s.bitMapData b) (ht : t'.blocks = t.blocks ++ [b]) :
    Takes taken Writer.blocks s s' t t' := by
  refine ⟨fun c hc => ?_, Or.inr ⟨b, ?_, ?_, ht⟩⟩
  · change bit s.bitMapData c = true at hc
    change bit s'.bitMapData c = true
    rw [hs, bit_setBit, hc, Bool.true_or]
  · change ¬bit s.bitMapData b = true
    rw [hb]
    exact Bool.false_ne_true
  · change bit s'.bitMapData b = true
    rw [hs, bit_setBit, decide_eq_true rfl, Bool.or_true]

/-- Other steps keep the bits that are set. -/
lemma takes_same {t t' : Writer}
    (hs : ∀ b, bit s.bitMapData b = true → bit s'.bitMapData b = true) (ht : t'.blocks = t.blocks) :
    Takes taken Writer.blocks s s' t t' := ⟨hs, Or.inl ht⟩

lemma searchFree_cases :
    (∃ b, FirstFree s.bitMapData dataBits b ∧ searchFree s = some (foundAt b)) ∨
      (freeBits s.bitMapData dataBits = ∅ ∧ searchFree s = none) := by
  rcases (freeBits s.bitMapData dataBits).eq_empty_or_nonempty with hempty | hfree
  · exact Or.inr ⟨hempty, searchFree_none hempty⟩
  · obtain ⟨b, hb⟩ := exists_firstFree hfree
    exact Or.inl ⟨b, hb, searchFree_some hb⟩

variable {calls : ι → WriteCall} {i : ι}

/-- The step under the lock. -/
lemma takes_start {t' : Writer} (hact : act build calls i s .start = some (s', t')) :
    Takes taken Writer.blocks s s' .start t' := by
  unfold act at hact
  dsimp only at hact
  split_ifs at hact
  rcases searchFree_cases (s := s.markDirty (calls i).slot) with
      ⟨b, hfree, hsearch⟩ | ⟨-, hsearch⟩ <;> rw [hsearch] at hact <;> cases hact
  · refine takes_setBit (b := b) hfree.clear (orWord_foundAt _ _) ?_
    rw [foundAt_index]
    rfl
  · exact takes_same (fun _ hb => hb) rfl

/-- The step that looks at the pointers of the object. -/
lemma takes_branching {t' : Writer} {blk : ℕ}
    (hgood : oldPointer build (calls i) s = 0 ∨
      oldBit s.bitMapData (oldPointer build (calls i) s) = false)
    (hact : act build calls i s (.branching blk) = some (s', t')) :
    Takes taken Writer.blocks s s' (.branching blk) t' := by
  rw [act] at hact
  rw [oldPointer] at hgood
  split_ifs at hact hgood with hdirect hnone <;>
    obtain ⟨rfl, rfl⟩ := Prod.mk.inj (Option.some.inj hact)
  · refine takes_same (fun b hb => ?_) rfl
    unfold writeDirect
    split_ifs with hmapped
    · exact hb
    · have hclear := hgood.resolve_left hmapped
      have hdropped := bit_toggleBit_of_clear hclear hb
      exact hdropped
  · exact takes_same (fun _ hb => hb) rfl
  · refine takes_same (fun b hb => ?_) rfl
    unfold writeOldIndirect
    dsimp only
    split_ifs with hmapped
    · exact hb
    · have hclear := hgood.resolve_left hmapped
      have hdropped := bit_toggleBit_of_clear hclear hb
      exact hdropped

/-- An undisturbed step takes only blocks that are not in use. -/
theorem takes_of_undisturbed {t t' : Writer} (hgood : Undisturbed build calls i s t)
    (hact : act build calls i s t = some (s', t')) : Takes taken Writer.blocks s s' t t' := by
  cases t with
  | start => exact takes_start hact
  | writing blk =>
    cases hact
    exact takes_same (fun _ hb => hb) rfl
  | branching blk => exact takes_branching hgood hact
  | testing blk k =>
    rw [act] at hact
    split_ifs at hact <;> cases hact <;> exact takes_same (fun _ hb => hb) rfl
  | setting blk k =>
    cases hact
    exact takes_setBit hgood rfl rfl
  | hanging blk ind =>
    cases hact
    exact takes_same (fun _ hb => hb) rfl
  | done blk ind => cases hact
  | failed => cases hact

end Blocks

section Alone

variable {calls : ι → WriteCall} {i : ι} {blk : ℕ}

/-- Steps of one call while the others wait. -/
abbrev Steps (build : Build) (calls : ι → WriteCall) :=
  Solo (act build calls) fun _ _ _ => True

lemma act_start (hin : WriteInBounds s (calls i).slot (calls i).offie (calls i).size)
    (hsearch : searchFree s = some (foundAt b)) : act build calls i s .start =
      some ({ s.markDirty (calls i).slot with bitMapData := setBit s.bitMapData b },
        .writing b) := by
  unfold act
  dsimp only
  rw [if_pos hin, show searchFree (s.markDirty (calls i).slot) = some (foundAt b) from hsearch]
  simp only [foundAt_index, orWord_foundAt]
  rfl

lemma act_testing_used (hk : k < 32 * dataWords) (hbit : bit s.bitMapData k = true) :
    act build calls i s (.testing blk k) = some (s, .testing blk (k + 1)) := by
  have hused :
    ¬freeTest (s.bitMapData ((k / 32 : ℕ) : ℤ)) (BitVec.twoPow 32 (k % 32)) k = true := by
    rw [freeTest, and_twoPow_eq_zero _ (mod_lt_word k), Bool.not_eq_true', Bool.not_eq_false]
    exact hbit
  rw [act, if_pos hk, if_neg hused]

lemma act_testing_clear (hk : k < 32 * dataWords) (hbit : bit s.bitMapData k = false) :
    act build calls i s (.testing blk k) = some (s, .setting blk k) := by
  have hclear :
    freeTest (s.bitMapData ((k / 32 : ℕ) : ℤ)) (BitVec.twoPow 32 (k % 32)) k = true := by
    rw [freeTest, and_twoPow_eq_zero _ (mod_lt_word k), Bool.not_eq_true']
    exact hbit
  rw [act, if_pos hk, if_pos hclear]

/-- The search for an indirect block goes past the blocks in use. -/
lemma solo_testing {m : ℕ} {s'' : Store} {t : Writer} (hkm : k ≤ m) (hend : m ≤ 32 * dataWords)
    (hused : ∀ b < m, bit s.bitMapData b = true)
    (h : ∃ c, Steps build calls i c s (.testing blk m) s'' t) :
    ∃ c, Steps build calls i c s (.testing blk k) s'' t := by
  induction hkm using Nat.decreasingInduction with
  | self => exact h
  | of_succ k hlt ih =>
    obtain ⟨c, hc⟩ := ih
    exact ⟨c + 1, Solo.step trivial (act_testing_used (hlt.trans_le hend) (hused k hlt)) hc⟩

/-- The search for a new indirect block, and what follows it. -/
lemma solo_newIndirect (build : Build) (calls : ι → WriteCall) (i : ι) (s : Store) (blk : ℕ) :
    ∃ c ind, Steps build calls i c s (.testing blk 0)
      (writeNewIndirect build s (calls i).slot (calls i).alpha (calls i).alp (calls i).size blk)
      (.done blk ind) := by
  rw [exists_comm]
  rcases searchFree_cases (s := s) with ⟨b, hfree, hsearch⟩ | ⟨hempty, hsearch⟩
  · have hused : ∀ c < b, bit s.bitMapData c = true := by
      intro c hc
      exact (Bool.not_eq_false' _).mp (hfree.2.2 c hc)
    have hclear : bit s.bitMapData b = false := FirstFree.clear hfree
    refine ⟨some b, solo_testing (Nat.zero_le b) hfree.1.le hused ⟨3, ?_⟩⟩
    refine Solo.step trivial (act_testing_clear hfree.1 hclear) ?_
    refine Solo.step trivial rfl (Solo.step trivial rfl ?_)
    rw [writeNewIndirect, hsearch]
    dsimp only
    rw [foundAt_index, orWord_foundAt]
    exact Solo.refl _ _
  · have hused : ∀ c < 32 * dataWords, bit s.bitMapData c = true := by
      intro c hc
      by_contra hclear
      exact Finset.notMem_empty c
        (hempty ▸ mem_freeBits.mpr ⟨hc, Bool.eq_false_of_not_eq_true hclear⟩)
    have hover : act build calls i s (.testing blk (32 * dataWords)) =
        some (s, .hanging blk none) := by rw [act, if_neg (lt_irrefl _)]
    refine ⟨none, solo_testing (Nat.zero_le _) le_rfl hused ⟨2, ?_⟩⟩
    refine Solo.step trivial hover (Solo.step trivial rfl ?_)
    rw [writeNewIndirect, hsearch]
    exact Solo.refl _ _

/-- A call that has its data block. -/
lemma solo_branching (build : Build) (calls : ι → WriteCall) (i : ι) (s : Store) (blk : ℕ) :
    ∃ c ind, Steps build calls i c s (.branching blk)
      (if (calls i).offie < 4 then writeDirect s (calls i).slot (calls i).offie (calls i).size blk
        else writeIndirect build s (calls i).slot (calls i).offie (calls i).size blk)
      (.done blk ind) := by
  rw [writeIndirect]
  split_ifs with hdirect hnone
  · refine ⟨1, none, Solo.step trivial ?_ (Solo.refl _ _)⟩
    rw [act, if_pos hdirect]
  · obtain ⟨c, ind, hsolo⟩ := solo_newIndirect build calls i s blk
    refine ⟨c + 1, ind, Solo.step trivial ?_ hsolo⟩
    rw [act, if_neg hdirect]
    exact if_pos hnone
  · refine ⟨1, none, Solo.step trivial ?_ (Solo.refl _ _)⟩
    rw [act, if_neg hdirect]
    exact if_neg hnone

/-- A call with no other thread around does what the sequential program does. -/
theorem write_alone [DecidableEq ι] {r : ℤ} (hwrite : objstoreWrite build s
      ((calls i).slot + 2) (calls i).buf (calls i).size (calls i).offset = some (s', r)) :
    ∃ c x rs, run (advance (act build calls)) ⟨s, fun _ => .start⟩ (List.replicate c i) =
      some (x, rs) ∧ x.shared = s' ∧ (r = -1 ∧ x.locals i = .failed ∨
        r = (calls i).size ∧ ∃ blk ind, x.locals i = .done blk ind) := by
  have hin : WriteInBounds s (calls i).slot (calls i).offie (calls i).size :=
    objstoreWrite_inBounds hwrite
  have hself : ∀ t, Function.update (fun _ : ι => Writer.start) i t i = t := by
    intro t
    rw [Function.update_self]
  rcases searchFree_cases (s := s) with ⟨b, hfree, hsearch⟩ | ⟨hfull, hsearch⟩
  · rw [objstoreWrite_eq hfree hin] at hwrite
    cases hwrite
    obtain ⟨c, ind, hsolo⟩ := solo_branching build calls i
      (placed build s (calls i).slot b (bufferPage (calls i).buf (calls i).size)) b
    have hrun := ((Solo.step trivial (act_start hin hsearch) (Solo.step trivial rfl hsolo)).trace
      (l := fun _ => .start) rfl).run
    exact ⟨_, _, _, hrun, rfl, Or.inr ⟨rfl, b, ind, hself _⟩⟩
  · have hstart : act build calls i s .start =
        some ({ s.markDirty (calls i).slot with lockData := true }, .failed) := by
      unfold act
      dsimp only
      rw [if_pos hin, show searchFree (s.markDirty (calls i).slot) = none from hsearch]
    rw [objstoreWrite_full hfull hin] at hwrite
    cases hwrite
    have hsolo : Steps build calls i 1 s .start _ .failed :=
      Solo.step trivial hstart (Solo.refl _ _)
    exact ⟨_, _, _, (hsolo.trace (l := fun _ => .start) rfl).run, rfl,
      Or.inl ⟨rfl, hself _⟩⟩

end Alone

section Runs

variable [DecidableEq ι]

/-- No two calls obtain one block, and the blocks they obtain were free at the start. -/
structure Apart (s : Store) (x : Threads Store Writer ι) : Prop where
  nodup : ∀ i, (x.locals i).blocks.Nodup
  apart : ∀ i j, ∀ b ∈ (x.locals i).blocks, b ∈ (x.locals j).blocks → i = j
  free : ∀ i, ∀ b ∈ (x.locals i).blocks, bit s.bitMapData b = false

/-- Any number of calls whose steps come in any order obtain different blocks, which were free
at the start, as long as their steps are undisturbed. -/
theorem writers_apart (build : Build) (calls : ι → WriteCall) (s : Store) (schedule : List ι)
    (hgood : Along (advance (act build calls))
      (fun x i => Undisturbed build calls i x.shared (x.locals i)) ⟨s, fun _ => .start⟩ schedule)
    (x : Threads Store Writer ι) (rs : List Unit)
    (hrun : run (advance (act build calls)) ⟨s, fun _ => .start⟩ schedule = some (x, rs)) :
    Apart s x := by
  have howned : Owned taken Writer.blocks (taken s) x := by
    refine hgood.invariant (fun x i x' r hx hstep hadvance => ?_) (owned_start fun _ => rfl) hrun
    obtain ⟨hact, hother⟩ := advance_eq_some.mp hadvance
    exact hx.step (takes_of_undisturbed hstep hact) hother
  exact ⟨howned.nodup, howned.apart, fun i b hb => Bool.eq_false_iff.mpr (howned.taken i b hb).2⟩

end Runs

section Race

/-- One page for block 4 of each of the two objects. -/
def raceCalls (i : Fin 2) : WriteCall := ⟨i, fun _ => 1, blockSize, 4 * blockSize⟩

lemma raceCalls_offie (i : Fin 2) : (raceCalls i).offie = 4 :=
  Nat.mul_div_cancel 4 (by norm_num)

lemma raceCalls_alpha (i : Fin 2) : (raceCalls i).alpha = 0 := by
  rw [WriteCall.alpha, raceCalls_offie]

/-- The first `m` blocks are in use, and no object has an indirect block. -/
structure Ready (m : ℕ) (s : Store) : Prop where
  lock : s.lockData = false
  bits : ∀ b, bit s.bitMapData b = decide (b < m)
  indirects : ∀ n, indirect s.objs n 0 = 0

lemma twoObjects_ready : Ready 0 twoObjects := by
  have hempty := objstoreInit_empty blankDevice_blank
  refine ⟨hempty.lock, hempty.used, fun n => ?_⟩
  change value .objfs twoObjects (.pointer n (4 + 0)) = 0
  rw [twoObjects, value_created (by decide), hempty.createdValue (by decide)]

variable {m : ℕ} {i : Fin 2}

/-- Steps of one of the two calls, each of them undisturbed. -/
abbrev RaceSteps : Fin 2 → ℕ → Store → Writer → Store → Writer → Prop :=
  Solo (act .objfs raceCalls) (Undisturbed .objfs raceCalls)

/-- A call up to its search for an indirect block. -/
lemma Ready.begin (h : Ready m s) (hm : m < dataBits) (i : Fin 2) :
    ∃ s', RaceSteps i 3 s .start s' (.testing m 0) ∧ Ready (m + 1) s' := by
  have hin : WriteInBounds s (raceCalls i).slot (raceCalls i).offie (raceCalls i).size :=
    ⟨le_rfl, by fin_cases i <;> decide, by rw [raceCalls_offie]; norm_num, h.lock⟩
  have hfree : FirstFree s.bitMapData dataBits m := by
    refine ⟨hm, ?_, fun k hk => ?_⟩ <;> simp only [h.bits]
    · simp
    · simp [hk]
  have hbranch : ∀ s : Store, indirect s.objs (raceCalls i).slot 0 = 0 →
      act .objfs raceCalls i s (.branching m) = some (s, .testing m 0) := by
    intro s hnone
    rw [act, raceCalls_offie, raceCalls_alpha, if_neg (by norm_num), if_pos hnone]
  have hold : ∀ s : Store, indirect s.objs (raceCalls i).slot 0 = 0 →
      Undisturbed .objfs raceCalls i s (.branching m) := by
    intro s hnone
    apply Or.inl
    rw [oldPointer, raceCalls_offie, raceCalls_alpha, if_neg (by norm_num), if_pos hnone]
  refine ⟨placed .objfs s i m _, Solo.step trivial (act_start hin (searchFree_some hfree))
    (Solo.step trivial rfl (Solo.step (hold _ (h.indirects _)) (hbranch _ (h.indirects _))
      (Solo.refl _ _))), h.lock, fun b => ?_, h.indirects⟩
  change bit (setBit s.bitMapData m) b = decide (b < m + 1)
  rw [bit_setBit, h.bits, ← Bool.decide_or, decide_eq_decide]
  omega

/-- The search of a call, up to the bit it finds clear. -/
lemma search (hm : m < dataBits) (hbits : ∀ b, bit s.bitMapData b = decide (b < m)) (i : Fin 2)
    (blk d k : ℕ) (hd : k + d = m) :
    RaceSteps i (d + 1) s (.testing blk k) s (.setting blk m) := by
  induction d generalizing k with
  | zero =>
    obtain rfl : k = m := hd
    exact Solo.step trivial (act_testing_clear hm ((hbits k).trans (by simp))) (Solo.refl _ _)
  | succ d ih =>
    have hused : bit s.bitMapData k = true := (hbits k).trans (by simp; omega)
    have hk : k < 32 * dataWords := lt_trans (by omega) hm
    exact Solo.step trivial (act_testing_used hk hused) (ih (k + 1) (by omega))

/-- What is left after the search. -/
lemma hang (hclear : bit s.bitMapData k = false) (i : Fin 2) (blk : ℕ) :
    ∃ s', s'.bitMapData = setBit s.bitMapData k ∧
      RaceSteps i 2 s (.setting blk k) s' (.done blk (some k)) :=
  ⟨_, rfl, Solo.step hclear rfl (Solo.step trivial rfl (Solo.refl _ _))⟩

/-- Two calls on an empty store: both test bit 2 before one of them sets it. -/
theorem writers_race : ¬∀ (build : Build) (n : ℕ) (calls : Fin n → WriteCall) (s : Store)
    (schedule : List (Fin n)) (x : Threads Store Writer (Fin n)) (rs : List Unit),
    StoreOk build True s → (∀ i j, (calls i).slot = (calls j).slot → i = j) →
    (∀ i, s.live (calls i).slot = true) → 2 * n ≤ (freeBits s.bitMapData dataBits).card →
    run (advance (act build calls)) ⟨s, fun _ => .start⟩ schedule = some (x, rs) → Apart s x := by
  intro hclaim
  have hempty := objstoreInit_empty blankDevice_blank
  obtain ⟨s₁, hbegin₀, hready₁⟩ := twoObjects_ready.begin (by decide) 0
  obtain ⟨s₂, hbegin₁, hready₂⟩ := hready₁.begin (by decide) 1
  have hsearch₀ : RaceSteps 0 3 s₂ (.testing 0 0) s₂ (.setting 0 2) :=
    search (by decide) hready₂.bits 0 0 2 0 rfl
  have hsearch₁ : RaceSteps 1 3 s₂ (.testing 1 0) s₂ (.setting 1 2) :=
    search (by decide) hready₂.bits 1 1 2 0 rfl
  -- the second call sets the bit that the first has set meanwhile
  obtain ⟨s₃, -, hhang₀⟩ := hang (hready₂.bits 2) 0 0
  have hhang₁ : Steps .objfs raceCalls 1 2 s₃ (.setting 1 2) _ (.done 1 (some 2)) :=
    Solo.step trivial rfl (Solo.step trivial rfl (Solo.refl _ _))
  have htrace := ((hbegin₀.mono fun _ _ _ _ => trivial).trace (l := fun _ => .start) rfl).append
    (((hbegin₁.mono fun _ _ _ _ => trivial).trace rfl).append
      (((hsearch₀.mono fun _ _ _ _ => trivial).trace rfl).append
        (((hsearch₁.mono fun _ _ _ _ => trivial).trace rfl).append
          (((hhang₀.mono fun _ _ _ _ => trivial).trace rfl).append (hhang₁.trace rfl)))))
  have hcard : 2 * 2 ≤ (freeBits twoObjects.bitMapData dataBits).card := by
    rw [twoObjects_free]
    decide
  have hapart := hclaim .objfs 2 raceCalls twoObjects
    [0, 0, 0, 1, 1, 1, 0, 0, 0, 1, 1, 1, 0, 0, 1, 1] _ _ twoObjects_ok (by decide)
    (fun i => (twoObjects_live i).mpr (by omega)) hcard htrace.run
  have hmem₀ : 2 ∈ (Writer.done 0 (some 2)).blocks := by decide
  have hmem₁ : 2 ∈ (Writer.done 1 (some 2)).blocks := by decide
  exact absurd (hapart.apart 0 1 2 hmem₀ hmem₁) (by decide)

/-- The same two calls, the second of which searches once the first has set its bit. -/
theorem writers_apart_late : ∃ (x : Threads Store Writer (Fin 2)) (rs : List Unit),
    run (advance (act .objfs raceCalls)) ⟨twoObjects, fun _ => .start⟩
      [0, 0, 0, 1, 1, 1, 0, 0, 0, 0, 0, 1, 1, 1, 1, 1, 1] = some (x, rs) ∧
      (x.locals 0).blocks = [0, 2] ∧ (x.locals 1).blocks = [1, 3] ∧ Apart twoObjects x := by
  obtain ⟨s₁, hbegin₀, hready₁⟩ := twoObjects_ready.begin (by decide) 0
  obtain ⟨s₂, hbegin₁, hready₂⟩ := hready₁.begin (by decide) 1
  have hsearch₀ : RaceSteps 0 3 s₂ (.testing 0 0) s₂ (.setting 0 2) :=
    search (by decide) hready₂.bits 0 0 2 0 rfl
  obtain ⟨s₃, hbits₃, hhang₀⟩ := hang (hready₂.bits 2) 0 0
  have hnext : ∀ b, bit s₃.bitMapData b = decide (b < 3) := by
    intro b
    rw [hbits₃, bit_setBit, hready₂.bits, ← Bool.decide_or, decide_eq_decide]
    omega
  have hsearch₁ : RaceSteps 1 4 s₃ (.testing 1 0) s₃ (.setting 1 3) :=
    search (by decide) hnext 1 1 3 0 rfl
  obtain ⟨s₄, -, hhang₁⟩ := hang (hnext 3) 1 1
  have htrace := (hbegin₀.trace (l := fun _ => .start) rfl).append ((hbegin₁.trace rfl).append
    ((hsearch₀.trace rfl).append ((hhang₀.trace rfl).append
      ((hsearch₁.trace rfl).append (hhang₁.trace rfl)))))
  exact ⟨_, _, htrace.run, rfl, rfl,
    writers_apart .objfs raceCalls twoObjects _ htrace.along _ _ htrace.run⟩

end Race

end OsAssignments.ConcurrentWrites
