import OsAssignments.PagingInvariant

/-!
# The limits of the data segments

EXPAND and SHRINK compare `next_free` with the limits of a segment in 64-bit
arithmetic. A request is answered as over the integers exactly when its sum or
difference does not wrap into the segment.
-/
namespace OsAssignments.SegmentLimits

open Paging PagingInvariant
open Machine (Along)

variable {α : Type} {A : Allocator α} {k k' : Kernel α} {n flag : Word}

/-- `start <= next_free <= end`, page-aligned. -/
structure Bounded (m : MmSegment) : Prop where
  start : Aligned m.start
  limit : Aligned m.limit
  nextFree : Aligned m.nextFree
  lower : m.start ≤ m.nextFree
  upper : m.nextFree ≤ m.limit

/-- Both data segments are within their limits. -/
def Bounds (k : Kernel α) : Prop := Bounded (k.ctx.mms .data) ∧ Bounded (k.ctx.mms .rodata)

/-- The segments but one are as they were, and that one differs in `next_free` only. -/
structure Moved (k k' : Kernel α) (s : MmSeg) (w : ℕ) : Prop where
  others : ∀ t, t ≠ s → k'.ctx.mms t = k.ctx.mms t
  start : (k'.ctx.mms s).start = (k.ctx.mms s).start
  limit : (k'.ctx.mms s).limit = (k.ctx.mms s).limit
  flags : (k'.ctx.mms s).accessFlags = (k.ctx.mms s).accessFlags
  nextFree : (k'.ctx.mms s).nextFree.toNat = w

/-- The requests of the runs. -/
def Event.IsRequest : Event → Prop
  | .expand _ _ | .shrink _ _ => True
  | .fault _ _ | .store _ _ => False

/-- What a request should do, over the integers; a reply of `none` is `NULL`. -/
def Behaves (A : Allocator α) (k : Kernel α) : Event → Prop
  | .expand n flag =>
    let m := k.ctx.mms (requested flag)
    (m.limit.toNat < m.nextFree.toNat + 4096 * n.toNat →
      Paging.exec A k (.expand n flag) = some (k, none)) ∧
    (m.nextFree.toNat + 4096 * n.toNat ≤ m.limit.toNat → ∃ k',
      Paging.exec A k (.expand n flag) = some (k', some m.nextFree) ∧
      Moved k k' (requested flag) (m.nextFree.toNat + 4096 * n.toNat)) ∧
    ∀ k' r, Paging.exec A k (.expand n flag) = some (k', r) → Bounds k'
  | .shrink n flag =>
    let m := k.ctx.mms (requested flag)
    ((m.nextFree.toNat : ℤ) - 4096 * n.toNat < m.start.toNat →
      Paging.exec A k (.shrink n flag) = some (k, none)) ∧
    ((m.start.toNat : ℤ) ≤ m.nextFree.toNat - 4096 * n.toNat → ∃ k' r,
      Paging.exec A k (.shrink n flag) = some (k', some r) ∧
      Moved k k' (requested flag) (m.nextFree.toNat - 4096 * n.toNat)) ∧
    ∀ k' r, Paging.exec A k (.shrink n flag) = some (k', r) → Bounds k'
  | .fault _ _ | .store _ _ => True

/-- The sum does not wrap, or wraps beyond the limit; the difference does not wrap, or wraps
below the start. -/
def Unwrapped (k : Kernel α) : Event → Prop
  | .expand n flag =>
    let m := k.ctx.mms (requested flag)
    m.nextFree.toNat + 4096 * n.toNat < 2 ^ 64 ∨
      m.limit.toNat < (m.nextFree.toNat + 4096 * n.toNat) % 2 ^ 64
  | .shrink n flag =>
    let m := k.ctx.mms (requested flag)
    4096 * n.toNat ≤ m.nextFree.toNat ∨
      (((m.nextFree.toNat : ℤ) - 4096 * n.toNat) % 2 ^ 64) < m.start.toNat
  | .fault _ _ | .store _ _ => True

section Requests

lemma free1_ctx (address : Word) (pgd : Frame) (k : Kernel α) :
    (free1 A address pgd k).ctx = k.ctx := by
  simp only [free1]
  split_ifs <;> rfl

lemma freePages_ctx (curr : Word) (pgd : Frame) (n : ℕ) (k : Kernel α) :
    (freePages A curr pgd n k).ctx = k.ctx := by
  induction n with
  | zero => rfl
  | succ n ih =>
    rw [freePages, List.range_succ, List.foldl_append]
    exact (free1_ctx _ _ _).trans ih

variable {s : MmSeg} {w : Word}

lemma setNextFree_moved (hctx : k'.ctx = k.ctx) : Moved k (k'.setNextFree s w) s w.toNat := by
  refine ⟨fun t ht => ?_, ?_, ?_, ?_, ?_⟩
  · rw [Kernel.setNextFree, hctx]
    exact Function.update_of_ne ht _ _
  all_goals simp only [Kernel.setNextFree, Function.update_self, hctx]

/-- A segment stays within its limits when `next_free` does. -/
lemma Moved.bounds {w : ℕ} (h : Moved k k' s w) (hb : Bounds k) (halign : w % 4096 = 0)
    (hlower : (k.ctx.mms s).start.toNat ≤ w) (hupper : w ≤ (k.ctx.mms s).limit.toNat) :
    Bounds k' := by
  have hseg : ∀ t, Bounded (k.ctx.mms t) → Bounded (k'.ctx.mms t) := by
    intro t ht
    by_cases hts : t = s
    · subst hts
      refine ⟨h.start ▸ ht.start, h.limit ▸ ht.limit, ?_, ?_, ?_⟩
      · rw [Aligned, h.nextFree]
        exact halign
      · rw [BitVec.le_def, h.start, h.nextFree]
        exact hlower
      · rw [BitVec.le_def, h.limit, h.nextFree]
        exact hupper
    · rw [h.others t hts]
      exact ht
  exact ⟨hseg _ hb.1, hseg _ hb.2⟩

lemma Bounds.requested (hb : Bounds k) (flag : Word) : Bounded (k.ctx.mms (requested flag)) := by
  rcases requested_or flag with h | h <;> rw [h]
  · exact hb.1
  · exact hb.2

lemma product_toNat (n : Word) : (n * 4096).toNat = 4096 * n.toNat % 2 ^ 64 := by
  have hpage : (4096 : Word).toNat = 4096 := rfl
  rw [BitVec.toNat_mul, hpage, Nat.mul_comm]

lemma sum_toNat (v n : Word) : (v + n * 4096).toNat = (v.toNat + 4096 * n.toNat) % 2 ^ 64 := by
  rw [BitVec.toNat_add, product_toNat, Nat.add_mod_mod]

lemma difference_toNat (v n : Word) :
    ((v - n * 4096).toNat : ℤ) = ((v.toNat : ℤ) - 4096 * n.toNat) % 2 ^ 64 := by
  have hv := v.isLt
  rw [BitVec.toNat_sub, product_toNat]
  omega

theorem exec_expand : Paging.exec A k (.expand n flag) =
    if (k.ctx.mms (requested flag)).limit.toNat <
        ((k.ctx.mms (requested flag)).nextFree.toNat + 4096 * n.toNat) % 2 ^ 64 then some (k, none)
    else some (k.setNextFree (requested flag) ((k.ctx.mms (requested flag)).nextFree + n * 4096),
      some (k.ctx.mms (requested flag)).nextFree) := by
  simp only [Paging.exec, sysExpand, BitVec.lt_def, sum_toNat]
  split_ifs <;> rfl

theorem exec_shrink : Paging.exec A k (.shrink n flag) =
    if ((k.ctx.mms (requested flag)).nextFree.toNat - 4096 * n.toNat : ℤ) % 2 ^ 64 <
        (k.ctx.mms (requested flag)).start.toNat then some (k, none)
    else some ((freePages A (k.ctx.mms (requested flag)).nextFree k.ctx.pgd n.toNat k).setNextFree
        (requested flag) ((k.ctx.mms (requested flag)).nextFree - n * 4096),
      some ((k.ctx.mms (requested flag)).nextFree - n * 4096)) := by
  have hcond : (k.ctx.mms (requested flag)).nextFree - n * 4096 <
      (k.ctx.mms (requested flag)).start ↔
      ((k.ctx.mms (requested flag)).nextFree.toNat - 4096 * n.toNat : ℤ) % 2 ^ 64 <
        (k.ctx.mms (requested flag)).start.toNat := by
    rw [BitVec.lt_def, ← difference_toNat, Nat.cast_lt]
  simp only [Paging.exec, sysShrink, hcond, freePages_ctx]
  split_ifs <;> rfl

end Requests

section Limits

variable {e : Event}

/-- The data of a bounded segment as numbers. -/
lemma Bounded.toNat {m : MmSegment} (h : Bounded m) : m.start.toNat ≤ m.nextFree.toNat ∧
    m.nextFree.toNat ≤ m.limit.toNat ∧ m.nextFree.toNat % 4096 = 0 :=
  ⟨h.lower, h.upper, h.nextFree⟩

lemma expand_behaves (hb : Bounds k) :
    Behaves A k (.expand n flag) ↔ Unwrapped k (.expand n flag) := by
  have hseg := (hb.requested flag).toNat
  have hmoved : Moved k (k.setNextFree (requested flag)
      ((k.ctx.mms (requested flag)).nextFree + n * 4096)) (requested flag) _ :=
    setNextFree_moved rfl
  have hbounds := hmoved.bounds hb
  have hlimit := (k.ctx.mms (requested flag)).limit.isLt
  rw [sum_toNat] at hmoved hbounds
  simp only [Behaves, Unwrapped, exec_expand]
  generalize k.ctx.mms (requested flag) = m at *
  constructor
  · rintro ⟨hrefused, -, -⟩
    by_contra hwrap
    rw [not_or, not_lt, not_lt] at hwrap
    have hreply := hrefused (by omega)
    rw [if_neg (by omega), Option.some.injEq, Prod.mk.injEq] at hreply
    exact Option.some_ne_none _ hreply.2
  · intro hcond
    refine ⟨fun hover => if_pos (by omega), fun hfits => ⟨_, if_neg (by omega), ?_⟩,
      fun k' r h => ?_⟩
    · rwa [Nat.mod_eq_of_lt (by omega)] at hmoved
    · split_ifs at h with hover
      · rw [Option.some.injEq, Prod.mk.injEq] at h
        exact h.1 ▸ hb
      · rw [Option.some.injEq, Prod.mk.injEq] at h
        exact h.1 ▸ hbounds (by omega) (by omega) (by omega)

lemma shrink_behaves (hb : Bounds k) :
    Behaves A k (.shrink n flag) ↔ Unwrapped k (.shrink n flag) := by
  have hseg := (hb.requested flag).toNat
  have hmoved : Moved k ((freePages A (k.ctx.mms (requested flag)).nextFree k.ctx.pgd n.toNat
      k).setNextFree (requested flag) ((k.ctx.mms (requested flag)).nextFree - n * 4096))
      (requested flag) _ := setNextFree_moved (freePages_ctx _ _ _ _)
  have hbounds := hmoved.bounds hb
  have hdiff := difference_toNat (k.ctx.mms (requested flag)).nextFree n
  have hlimit := (k.ctx.mms (requested flag)).limit.isLt
  simp only [Behaves, Unwrapped, exec_shrink]
  generalize k.ctx.mms (requested flag) = m at *
  generalize (m.nextFree - n * 4096).toNat = w at *
  constructor
  · rintro ⟨hrefused, -, -⟩
    by_contra hwrap
    rw [not_or, not_le, not_lt] at hwrap
    have hreply := hrefused (by omega)
    rw [if_neg (by omega), Option.some.injEq, Prod.mk.injEq] at hreply
    exact Option.some_ne_none _ hreply.2
  · intro hcond
    refine ⟨fun hover => if_pos (by omega), fun hfits => ⟨_, _, if_neg (by omega), ?_⟩,
      fun k' r h => ?_⟩
    · have hw : w = m.nextFree.toNat - 4096 * n.toNat := by omega
      rwa [hw] at hmoved
    · split_ifs at h with hover
      · rw [Option.some.injEq, Prod.mk.injEq] at h
        exact h.1 ▸ hb
      · rw [Option.some.injEq, Prod.mk.injEq] at h
        exact h.1 ▸ hbounds (by omega) (by omega) (by omega)

theorem behaves_iff (hb : Bounds k) (he : Event.IsRequest e) : Behaves A k e ↔ Unwrapped k e := by
  cases e with
  | expand n flag => exact expand_behaves hb
  | shrink n flag => exact shrink_behaves hb
  | fault rip errorCode => exact he.elim
  | store address byte => exact he.elim

lemma step_bounds {r : Option Word} (hb : Bounds k) (he : Event.IsRequest e)
    (hcond : Unwrapped k e) (h : Paging.exec A k e = some (k', r)) : Bounds k' := by
  have hbehaves := (behaves_iff (A := A) hb he).mpr hcond
  cases e with
  | expand n flag => exact hbehaves.2.2 k' r h
  | shrink n flag => exact hbehaves.2.2 k' r h
  | fault rip errorCode => exact he.elim
  | store address byte => exact he.elim

/-- In a run of requests every request is answered as over the integers, and the segments stay
within their limits, if and only if no request wraps into a segment. -/
theorem behaves_iff_unwrapped (A : Allocator α) (k : Kernel α) (hb : Bounds k) (es : List Event)
    (hes : ∀ e ∈ es, Event.IsRequest e) :
    Along (Paging.exec A) (Behaves A) k es ↔ Along (Paging.exec A) Unwrapped k es :=
  Along.congr (I := Bounds) (D := Event.IsRequest) (fun _ _ hb he => behaves_iff hb he)
    (fun _ _ _ _ hb he hcond h => step_bounds hb he hcond h) hb hes

lemma unmapped_bounds : Bounds unmapped :=
  ⟨⟨rfl, rfl, rfl, by decide, by decide⟩, ⟨rfl, rfl, rfl, by decide, by decide⟩⟩

theorem behaves_iff_unwrapped_shrink :
    Along (Paging.exec bump) (Behaves bump) unmapped [.shrink 1 1, .expand 1 1] := by
  refine (behaves_iff_unwrapped bump unmapped unmapped_bounds _ (by simp [Event.IsRequest])).mpr
    ⟨Or.inl (by decide), fun k' r h => ⟨Or.inl ?_, fun _ _ _ => trivial⟩⟩
  have hnext : (Paging.exec bump unmapped (.shrink 1 1)).map (fun x =>
      (x.1.ctx.mms (requested 1)).nextFree) = some 0x180000000 := by decide
  rw [h, Option.map_some, Option.some.injEq] at hnext
  rw [hnext]
  decide

/-- EXPAND by 2^52 pages is granted: the product wraps to 0. -/
theorem wrapped_expand_granted : ¬∀ es, (∀ e ∈ es, Event.IsRequest e) →
    Along (Paging.exec bump) (Behaves bump) unmapped es := by
  intro hclaim
  have hbehaves := (hclaim [.expand (2 ^ 52) 1] (by simp [Event.IsRequest])).1
  have hcond := (behaves_iff (e := .expand (2 ^ 52) 1) unmapped_bounds trivial).mp hbehaves
  revert hcond
  simp only [Unwrapped]
  decide

end Limits

end OsAssignments.SegmentLimits
