import OsAssignments.Interleaving
import OsAssignments.StoreRuns

/-!
# Concurrent creators

`create_object` in the steps that other threads can come between: it holds `lock_inode`
from before its search until the bit of the object is set, and reads the number that it
returns when the lock is free again. Whatever the order of the steps, the objects are those
that calls made one after the other in the order of the lock would make.
-/
namespace OsAssignments.ConcurrentCreates

open ByteMemory Bitmap ObjectTable Builds Interleaving
open Machine (run run_append run_cons)

variable {ι : Type*} {build : Build} {keys : ι → CString} {i j : ι}

/-- The store, and whether `lock_inode` is held. -/
structure Locked where
  store : Store
  held : Bool

/-- Where a call stands: before the lock; at bit `k` of its search; before the number, the key and
the bit of record `k` are written; before it gives the lock back and before it returns, with
the record it found; or back at its caller with the number. -/
inductive Creator
  | start
  | scanning (k : ℕ)
  | marking (k : ℕ)
  | naming (k : ℕ)
  | setting (k : ℕ)
  | unlocking (free : Option ℕ)
  | returning (free : Option ℕ)
  | done (r : ℤ)

namespace Creator

/-- Between the lock and the unlock. -/
def Critical : Creator → Prop
  | start | returning _ | done _ => False
  | scanning _ | marking _ | naming _ | setting _ | unlocking _ => True

/-- Whether the object of a call is there, or none was free for it. -/
def made : Creator → Bool
  | start | scanning _ | marking _ | naming _ | setting _ => false
  | unlocking _ | returning _ | done _ => true

end Creator

section Steps

/-- `d_bit_map[..]=1` and `free->id=i*32+j+2`. -/
def marked (s : Store) (k : ℕ) : Store :=
  { s.markDirty k with objs := setId s.objs k (k + 2 : ℕ) }

/-- `strcpy(free->key,key)`. -/
def named (s : Store) (k : ℕ) (key : CString) : Store :=
  { s with objs := setKey s.objs k key }

variable (keys) in
/-- The next step of one call. -/
def act (i : ι) (x : Locked) : Creator → Option (Locked × Creator)
  | .start => if x.held then none else some ({ x with held := true }, .scanning 0)
  | .scanning k =>
    if k < slotCount then
      if freeTest (x.store.bitMapInode ((k / 32 : ℕ) : ℤ)) (BitVec.twoPow 32 (k % 32)) k then
        some (x, .marking k)
      else some (x, .scanning (k + 1))
    else some (x, .unlocking none)
  | .marking k =>
    if KeyInObjs k (keys i) then some ({ x with store := marked x.store k }, .naming k) else none
  | .naming k => some ({ x with store := named x.store k (keys i) }, .setting k)
  | .setting k =>
    some ({ x with store := { x.store with bitMapInode := setBit x.store.bitMapInode k } },
      .unlocking (some k))
  | .unlocking free => some ({ x with held := false }, .returning free)
  | .returning none => some (x, .done (-1))
  | .returning (some k) => some (x, .done (objId x.store.objs k))
  | .done _ => none

end Steps

section Searching

variable {x : Locked} {s : Store} {k : ℕ}

lemma freeTest_bit (s : Store) (k : ℕ) :
    freeTest (s.bitMapInode ((k / 32 : ℕ) : ℤ)) (BitVec.twoPow 32 (k % 32)) k = !s.live k := by
  rw [freeTest, and_twoPow_eq_zero _ (Nat.mod_lt k (by norm_num)), Store.live, bit]

lemma act_scanning_live (hk : k < slotCount) (hlive : x.store.live k = true) :
    act keys i x (.scanning k) = some (x, .scanning (k + 1)) := by
  rw [act, if_pos hk, freeTest_bit, hlive, Bool.not_true, if_neg Bool.false_ne_true]

lemma act_scanning_free (hk : k < slotCount) (hlive : x.store.live k = false) :
    act keys i x (.scanning k) = some (x, .marking k) := by
  rw [act, if_pos hk, freeTest_bit, hlive, Bool.not_false, if_pos rfl]

lemma act_scanning_end (hk : ¬k < slotCount) :
    act keys i x (.scanning k) = some (x, .unlocking none) := by
  rw [act, if_neg hk]

/-- The writes of one call together. -/
lemma created_eq (s : Store) (k : ℕ) (key : CString) :
    { named (marked s k) k key with bitMapInode := setBit s.bitMapInode k } =
      created s k key := rfl

end Searching

section Alone

variable {s s' : Store} {k n : ℕ} {y : Locked} {t : Creator}

/-- Steps of one call while the others wait. -/
abbrev Steps (keys : ι → CString) := Solo (act keys) fun _ _ _ => True

/-- The search goes past the live records. -/
lemma solo_scanning (hkn : k ≤ n) (hn : n ≤ slotCount) (hlive : ∀ m < n, s.live m = true)
    (h : ∃ c, Steps keys i c ⟨s, true⟩ (.scanning n) y t) :
    ∃ c, Steps keys i c ⟨s, true⟩ (.scanning k) y t := by
  induction hkn using Nat.decreasingInduction with
  | self => exact h
  | of_succ k hlt ih =>
    obtain ⟨c, hc⟩ := ih
    exact ⟨c + 1, Solo.step trivial (act_scanning_live (hlt.trans_le hn) (hlive k hlt)) hc⟩

/-- The object is made and the lock given back. -/
lemma solo_creating {c : ℕ} (hn : FirstFree s.bitMapInode slotCount n) (hkey : KeyInObjs n (keys i))
    (h : Steps keys i c ⟨created s n (keys i), false⟩ (.returning (some n)) y t) :
    Steps keys i (c + 5) ⟨s, true⟩ (.scanning n) y t := by
  have hmark : act keys i ⟨s, true⟩ (.marking n) = some (⟨marked s n, true⟩, .naming n) := by
    rw [act, if_pos hkey]
  exact Solo.step trivial (act_scanning_free hn.1 hn.clear) (Solo.step trivial hmark
    (Solo.step trivial rfl (Solo.step trivial rfl (Solo.step trivial rfl h))))

/-- The number is read when other threads may hold the lock again. -/
lemma act_returning {key : CString} {held : Bool} (hn : n < slotCount) :
    act keys i ⟨created s n key, held⟩ (.returning (some n)) =
      some (⟨created s n key, held⟩, .done ((n + 2 : ℕ) : ℤ)) := by
  rw [act, ← objId_created hn]
  rfl

/-- A call with no other thread around does what the sequential program does. -/
theorem create_alone {r : ℤ} (hcreate : createObject s (keys i) = some (s', r)) :
    ∃ c, Steps keys i c ⟨s, false⟩ .start ⟨s', false⟩ (.done r) := by
  have hstart : act keys i ⟨s, false⟩ .start = some (⟨s, true⟩, .scanning 0) := rfl
  obtain ⟨hfull, rfl, rfl⟩ | ⟨n, hn, hkey, rfl, rfl⟩ := create_cases hcreate
  · have hlive : ∀ m < slotCount, s'.live m = true := by
      intro m hm
      by_contra hclear
      exact Finset.notMem_empty m
        (hfull ▸ mem_freeBits.mpr ⟨hm, Bool.eq_false_of_not_eq_true hclear⟩)
    obtain ⟨c, hc⟩ : ∃ c, Steps keys i c ⟨s', true⟩ (.scanning 0) _ _ :=
      solo_scanning (Nat.zero_le _) le_rfl hlive
        ⟨3, Solo.step trivial (act_scanning_end (lt_irrefl _))
          (Solo.step trivial rfl (Solo.step trivial rfl (Solo.refl _ _)))⟩
    exact ⟨c + 1, Solo.step trivial hstart hc⟩
  · have hlive : ∀ m < n, s.live m = true := by
      intro m hm
      simpa [Store.live] using hn.2.2 m hm
    obtain ⟨c, hc⟩ : ∃ c, Steps keys i c ⟨s, true⟩ (.scanning 0) _ _ :=
      solo_scanning (Nat.zero_le n) hn.1.le hlive
        ⟨6, solo_creating hn hkey (Solo.step trivial (act_returning hn.1) (Solo.refl _ _))⟩
    exact ⟨c + 1, Solo.step trivial hstart hc⟩

end Alone

section Linear

variable {x y : Locked} {s s₀ s' : Store} {t t' : Creator} {order : List ι} {log : List (ι × Reply)}
  {k : ℕ}

/-- The call of thread `i`. -/
def call (keys : ι → CString) (i : ι) : Op := .create (keys i)

/-- The reply of a call that found record `free`. -/
def replyOf (free : Option ℕ) : Reply := { ret := free.elim (-1) fun k => ((k + 2 : ℕ) : ℤ) }

lemma replyOf_inj {k m : ℕ} (h : replyOf (some k) = replyOf (some m)) : k = m := by
  have hret : ((k + 2 : ℕ) : ℤ) = ((m + 2 : ℕ) : ℤ) := congrArg Reply.ret h
  omega

lemma replyOf_ret {k : ℕ} : (replyOf (some k)).ret ≠ -1 := by
  show ((k + 2 : ℕ) : ℤ) ≠ -1
  omega

lemma replyOf_ne_none {k : ℕ} : replyOf (some k) ≠ replyOf none :=
  fun h => replyOf_ret (congrArg Reply.ret h)

/-- The store in the middle of a call. -/
def partly (s : Store) (key : CString) : Creator → Store
  | .naming k => marked s k
  | .setting k => named (marked s k) k key
  | _ => s

/-- Where a thread stands, when the calls of `order` were made with the replies of `log`. -/
def Place (keys : ι → CString) (order : List ι) (log : List (ι × Reply)) (s : Store) (i : ι) :
    Creator → Prop
  | .start => i ∉ order
  | .scanning k => i ∉ order ∧ ∀ m < k, s.live m = true
  | .marking k => i ∉ order ∧ FirstFree s.bitMapInode slotCount k
  | .naming k | .setting k =>
    i ∉ order ∧ FirstFree s.bitMapInode slotCount k ∧ KeyInObjs k (keys i)
  | .unlocking free | .returning free =>
    (i, replyOf free) ∈ log ∧ ∀ k ∈ free, s.live k = true
  | .done r => (i, { ret := r }) ∈ log

/-- Up to the call in its critical section the threads did what calls made one after the other
do. -/
structure Linear (build : Build) (keys : ι → CString) (s₀ : Store) (x : Threads Locked Creator ι)
    (order : List ι) (s : Store) (rs : List Reply) : Prop where
  run : execAll build s₀ (order.map (call keys)) = some (s, rs)
  ok : StoreOk build True s
  nodup : order.Nodup
  exclusive : Exclusive Locked.held Creator.Critical x
  outside : x.shared.held = false → x.shared.store = s
  inside : ∀ i, (x.locals i).Critical → x.shared.store = partly s (keys i) (x.locals i)
  places : ∀ i, Place keys order (order.zip rs) s i (x.locals i)
  numbers : ∀ i r, (i, r) ∈ order.zip rs → r.ret = -1 ∨ ∃ k, r = replyOf (some k) ∧ s.live k = true
  apart : ∀ i j k, (i, replyOf (some k)) ∈ order.zip rs → (j, replyOf (some k)) ∈ order.zip rs →
    i = j

/-- A step takes the lock, gives it back or leaves it alone. -/
lemma act_locking (hact : act keys i x t = some (y, t')) :
    Locking Locked.held Creator.Critical x y t t' := by
  cases t with
  | start =>
    rw [act] at hact
    split_ifs at hact with hheld
    cases hact
    refine ⟨fun _ _ => ⟨by simpa using hheld, rfl⟩, fun h => h.elim, fun h => (h.mpr trivial).elim⟩
  | scanning k =>
    rw [act] at hact
    split_ifs at hact <;> cases hact <;>
      exact ⟨fun h => absurd trivial h, fun _ h => absurd trivial h, fun _ => rfl⟩
  | marking k =>
    rw [act] at hact
    split_ifs at hact
    cases hact
    exact ⟨fun h => absurd trivial h, fun _ h => absurd trivial h, fun _ => rfl⟩
  | naming k =>
    cases hact
    exact ⟨fun h => absurd trivial h, fun _ h => absurd trivial h, fun _ => rfl⟩
  | setting k =>
    cases hact
    exact ⟨fun h => absurd trivial h, fun _ h => absurd trivial h, fun _ => rfl⟩
  | unlocking free =>
    cases hact
    exact ⟨fun h => absurd trivial h, fun _ _ => rfl, fun h => (h.mp trivial).elim⟩
  | returning free =>
    cases free <;> cases hact <;>
      exact ⟨fun _ h => h.elim, fun h => h.elim, fun _ => rfl⟩
  | done r => cases hact

/-- The places of the other threads as more calls are made. -/
lemma Place.mono {order' : List ι} {log' : List (ι × Reply)} (h : Place keys order log s j t)
    (ht : ¬t.Critical) (horder : j ∉ order → j ∉ order') (hlog : log ⊆ log')
    (hlive : ∀ k, s.live k = true → s'.live k = true) :
    Place keys order' log' s' j t := by
  cases t with
  | start => exact horder h
  | returning free => exact ⟨hlog h.1, fun k hk => hlive k (h.2 k hk)⟩
  | done r => exact hlog h
  | scanning k => exact absurd trivial ht
  | marking k => exact absurd trivial ht
  | naming k => exact absurd trivial ht
  | setting k => exact absurd trivial ht
  | unlocking free => exact absurd trivial ht

/-- A call that goes on outside its critical section changes nothing. -/
lemma act_outside (hact : act keys i x t = some (y, t')) (ht : ¬t.Critical) (ht' : ¬t'.Critical) :
    y = x := by
  cases t with
  | start =>
    rw [act] at hact
    split_ifs at hact
    cases hact
    exact absurd trivial ht'
  | returning free => cases free <;> cases hact <;> rfl
  | done r => cases hact
  | scanning k => exact absurd trivial ht
  | marking k => exact absurd trivial ht
  | naming k => exact absurd trivial ht
  | setting k => exact absurd trivial ht
  | unlocking free => exact absurd trivial ht

section Moves

variable {X X' : Threads Locked Creator ι} {rs : List Reply}
  (h : Linear build keys s₀ X order s rs)
  (hact : act keys i X.shared (X.locals i) = some (X'.shared, X'.locals i))
  (hother : ∀ j, j ≠ i → X'.locals j = X.locals j)
include h hact hother

/-- The section of another thread is not touched. -/
lemma Linear.inside_other (hj : j ≠ i) (hin : (X'.locals j).Critical) :
    X'.shared.store = partly s (keys j) (X'.locals j) := by
  have hexclusive := h.exclusive.step (act_locking hact) hother
  rw [hother j hj] at hin ⊢
  have hout : ¬(X.locals i).Critical := fun hi => hj (h.exclusive.unique j i hin hi)
  have hout' : ¬(X'.locals i).Critical := fun hi =>
    hj (hexclusive.unique j i (by rwa [hother j hj]) hi)
  rw [act_outside hact hout hout']
  exact h.inside j hin

/-- A step that makes no object. -/
lemma Linear.quiet (houtside : X'.shared.held = false → X'.shared.store = s)
    (hinside : (X'.locals i).Critical → X'.shared.store = partly s (keys i) (X'.locals i))
    (hplace : Place keys order (order.zip rs) s i (X'.locals i)) :
    Linear build keys s₀ X' order s rs := by
  refine ⟨h.run, h.ok, h.nodup, h.exclusive.step (act_locking hact) hother, houtside,
    fun j hj => ?_, fun j => ?_, h.numbers, h.apart⟩
  · by_cases hji : j = i
    · subst hji
      exact hinside hj
    · exact h.inside_other hact hother hji hj
  · by_cases hji : j = i
    · subst hji
      exact hplace
    · rw [hother j hji]
      exact h.places j

/-- The step with which a call has its record, or knows that there is none. -/
lemma Linear.makes {free : Option ℕ} (hi : i ∉ order) (ht' : X'.locals i = .unlocking free)
    (hexec : exec build s (call keys i) = some (s', replyOf free)) (hok : StoreOk build True s')
    (hlive : ∀ k, s.live k = true → s'.live k = true) (hstore : X'.shared.store = s')
    (hfree : ∀ k ∈ free, s.live k = false ∧ s'.live k = true) :
    Linear build keys s₀ X' (order ++ [i]) s' (rs ++ [replyOf free]) := by
  have hexclusive := h.exclusive.step (act_locking hact) hother
  have hin : (X'.locals i).Critical := by
    rw [ht']
    trivial
  have hlength : order.length = rs.length := by
    rw [Machine.run_length h.run, List.length_map]
  have hzip : (order ++ [i]).zip (rs ++ [replyOf free]) = order.zip rs ++ [(i, replyOf free)] :=
    List.zip_append hlength
  have hmem : ∀ j r, (j, r) ∈ order.zip rs ++ [(i, replyOf free)] ↔
      (j, r) ∈ order.zip rs ∨ j = i ∧ r = replyOf free := by
    intro j r
    rw [List.mem_append, List.mem_singleton, Prod.mk.injEq]
  -- a record that was made before is not the new one
  have hnew : ∀ j k, (j, replyOf (some k)) ∈ order.zip rs → replyOf (some k) ≠ replyOf free := by
    intro j k hj he
    obtain ⟨m, rfl⟩ : ∃ m, free = some m := by
      cases free with
      | none => exact absurd he replyOf_ne_none
      | some m => exact ⟨m, rfl⟩
    obtain hnone | ⟨m', hm', hmlive⟩ := h.numbers j _ hj
    · exact replyOf_ret hnone
    · rw [← replyOf_inj hm', replyOf_inj he, (hfree m rfl).1] at hmlive
      cases hmlive
  refine ⟨?_, hok, ?_, hexclusive, fun _ => hstore, fun j hj => ?_, fun j => ?_, ?_, ?_⟩
  · rw [List.map_append]
    exact run_append.mpr ⟨s, rs, [replyOf free], h.run, run_cons.mpr ⟨s', _, [], hexec, rfl, rfl⟩,
      rfl⟩
  · refine List.nodup_append.mpr ⟨h.nodup, List.nodup_singleton i, fun j hj k hk hjk => ?_⟩
    rw [List.mem_singleton.mp hk] at hjk
    exact hi (hjk ▸ hj)
  · obtain rfl := hexclusive.unique j i hj hin
    rw [hstore, ht']
    rfl
  · rw [hzip]
    by_cases hji : j = i
    · subst hji
      rw [ht']
      exact ⟨(hmem _ _).mpr (Or.inr ⟨rfl, rfl⟩), fun k hk => (hfree k hk).2⟩
    · have hout : ¬(X.locals j).Critical := fun hj =>
        hji (hexclusive.unique j i (by rwa [hother j hji]) hin)
      rw [hother j hji]
      refine (h.places j).mono hout (fun hj => ?_) (List.subset_append_left _ _) hlive
      simpa [hji] using hj
  · intro j r hj
    rw [hzip, hmem] at hj
    obtain hj | ⟨-, rfl⟩ := hj
    · exact (h.numbers j r hj).imp_right fun ⟨k, hk, hlivek⟩ => ⟨k, hk, hlive k hlivek⟩
    · cases free with
      | none => exact Or.inl rfl
      | some k => exact Or.inr ⟨k, rfl, (hfree k rfl).2⟩
  · intro j j' k hj hj'
    rw [hzip, hmem] at hj hj'
    obtain hj | ⟨hji, he⟩ := hj <;> obtain hj' | ⟨hji', he'⟩ := hj'
    · exact h.apart j j' k hj hj'
    · exact absurd he' (hnew j k hj)
    · exact absurd he (hnew j' k hj')
    · exact hji.trans hji'.symm

end Moves

section Step

variable {X X' : Threads Locked Creator ι} {rs : List Reply}

/-- The number of an object is read back whoever has the lock. -/
lemma Linear.objId_live (h : Linear build keys s₀ X order s rs) (hkeys : ∀ i, Fits (keys i))
    (hk : s.live k = true) : objId X.shared.store.objs k = (k + 2 : ℕ) := by
  have hid : objId s.objs k = (k + 2 : ℕ) := by
    rw [h.ok.ids k hk]
    push_cast
    rfl
  have hmarked : ∀ m, FirstFree s.bitMapInode slotCount m →
      objId (setId s.objs m (m + 2 : ℕ)) k = objId s.objs k := by
    intro m hm
    have hmk : m ≠ k := by
      rintro rfl
      rw [Store.live, hm.clear] at hk
      cases hk
    have hlt := hm.1
    rw [slotCount_eq] at hlt
    rw [objId_setId (by omega), if_neg hmk]
  cases hheld : X.shared.held with
  | false => rw [h.outside hheld, hid]
  | true =>
    obtain ⟨j, hj⟩ := h.exclusive.held.mp hheld
    have hstore := h.inside j hj
    have hplace := h.places j
    generalize X.locals j = t at hj hstore hplace
    rw [hstore]
    cases t with
    | naming m => exact (hmarked m hplace.2.1).trans hid
    | setting m => exact (objId_setKey (hkeys j)).trans ((hmarked m hplace.2.1).trans hid)
    | scanning m => exact hid
    | marking m => exact hid
    | unlocking free => exact hid
    | start => exact hj.elim
    | returning free => exact hj.elim
    | done r => exact hj.elim

/-- The call that a step makes. -/
def madeBy (i : ι) (t t' : Creator) : List ι := if !t.made && t'.made then [i] else []

lemma Linear.kept (h : Linear build keys s₀ X order s rs)
    (hmade : t.made = true ∨ t'.made = false) :
    ∃ s' rs', Linear build keys s₀ X (order ++ madeBy i t t') s' rs' := by
  refine ⟨s, rs, ?_⟩
  have hnone : madeBy i t t' = [] := by
    rw [madeBy, if_neg]
    obtain hmade | hmade := hmade <;> simp [hmade]
  rwa [hnone, List.append_nil]

lemma Linear.grown (h : Linear build keys s₀ X (order ++ [i]) s rs) (hmade : t.made = false)
    (hmade' : t'.made = true) :
    ∃ s' rs', Linear build keys s₀ X (order ++ madeBy i t t') s' rs' := by
  refine ⟨s, rs, ?_⟩
  have hone : madeBy i t t' = [i] := by
    rw [madeBy, hmade, hmade']
    rfl
  rwa [hone]

/-- The lock stays held while a record is written. -/
lemma Linear.held_inside (h : Linear build keys s₀ X order s rs)
    (hact : act keys i X.shared (X.locals i) = some (X'.shared, X'.locals i))
    (ht : (X.locals i).Critical) (ht' : (X'.locals i).Critical) : X'.shared.held = true := by
  rw [(act_locking hact).same (iff_of_true ht ht')]
  exact h.exclusive.held.mpr ⟨i, ht⟩

section Cases

variable (h : Linear build keys s₀ X order s rs)
  (hact : act keys i X.shared (X.locals i) = some (X'.shared, X'.locals i))
  (hother : ∀ j, j ≠ i → X'.locals j = X.locals j)
include h hact hother

lemma Linear.step_start (ht : X.locals i = .start) :
    ∃ s' rs', Linear build keys s₀ X' (order ++ madeBy i .start (X'.locals i)) s' rs' := by
  have hstep := hact
  rw [ht, act] at hstep
  split_ifs at hstep with hheld
  obtain ⟨hy, ht'⟩ := Prod.mk.inj (Option.some.inj hstep)
  have hplace := h.places i
  rw [ht] at hplace
  have hstore : X.shared.store = s := h.outside (by simpa using hheld)
  have hquiet := h.quiet hact hother (by rw [← hy]; exact fun _ => hstore)
    (by rw [← hy, ← ht']; exact fun _ => hstore)
    (by rw [← ht']; exact ⟨hplace, fun m hm => absurd hm (Nat.not_lt_zero m)⟩)
  exact hquiet.kept (Or.inr (by rw [← ht']; rfl))

lemma Linear.step_scanning (ht : X.locals i = .scanning k) :
    ∃ s' rs', Linear build keys s₀ X' (order ++ madeBy i (.scanning k) (X'.locals i)) s' rs' := by
  have hplace := h.places i
  have hstore := h.inside i (by rw [ht]; trivial)
  rw [ht] at hplace hstore
  replace hstore : X.shared.store = s := hstore
  obtain ⟨hi, hbelow⟩ := hplace
  have hstep := hact
  rw [ht] at hstep
  by_cases hk : k < slotCount
  · cases hlive : s.live k with
    | true =>
      rw [act_scanning_live hk (by rwa [hstore])] at hstep
      obtain ⟨hy, ht'⟩ := Prod.mk.inj (Option.some.inj hstep)
      have hquiet := h.quiet hact hother (by rw [← hy]; exact fun _ => hstore)
        (by rw [← hy, ← ht']; exact fun _ => hstore) (by
          rw [← ht']
          refine ⟨hi, fun m hm => ?_⟩
          obtain hm | rfl := Nat.lt_succ_iff_lt_or_eq.mp hm
          · exact hbelow m hm
          · exact hlive)
      exact hquiet.kept (Or.inr (by rw [← ht']; rfl))
    | false =>
      rw [act_scanning_free hk (by rwa [hstore])] at hstep
      obtain ⟨hy, ht'⟩ := Prod.mk.inj (Option.some.inj hstep)
      have hfirst : FirstFree s.bitMapInode slotCount k := by
        refine ⟨hk, ?_, fun m hm => ?_⟩
        · simpa [Store.live] using hlive
        · simpa [Store.live] using hbelow m hm
      have hquiet := h.quiet hact hother (by rw [← hy]; exact fun _ => hstore)
        (by rw [← hy, ← ht']; exact fun _ => hstore) (by rw [← ht']; exact ⟨hi, hfirst⟩)
      exact hquiet.kept (Or.inr (by rw [← ht']; rfl))
  · rw [act_scanning_end hk] at hstep
    obtain ⟨hy, ht'⟩ := Prod.mk.inj (Option.some.inj hstep)
    have hfull : freeBits s.bitMapInode slotCount = ∅ := by
      refine Finset.eq_empty_of_forall_notMem fun m hm => ?_
      obtain ⟨hlt, hclear⟩ := mem_freeBits.mp hm
      have hlive := hbelow m (hlt.trans_le (not_lt.mp hk))
      rw [Store.live, hclear] at hlive
      cases hlive
    have hexec : exec build s (call keys i) = some (s, replyOf none) := by
      rw [call, exec, createObject_full hfull]
      rfl
    have hmakes := h.makes hact hother hi ht'.symm hexec h.ok (fun _ hm => hm)
      (by rw [← hy, hstore]) (fun m hm => by cases hm)
    exact hmakes.grown rfl (by rw [← ht']; rfl)

lemma Linear.step_marking (ht : X.locals i = .marking k) :
    ∃ s' rs', Linear build keys s₀ X' (order ++ madeBy i (.marking k) (X'.locals i)) s' rs' := by
  have hplace := h.places i
  have hin : (X.locals i).Critical := by
    rw [ht]
    trivial
  have hstore := h.inside i hin
  rw [ht] at hplace hstore
  replace hstore : X.shared.store = s := hstore
  have hstep := hact
  rw [ht, act] at hstep
  split_ifs at hstep with hkey
  obtain ⟨hy, ht'⟩ := Prod.mk.inj (Option.some.inj hstep)
  have hheld := h.held_inside hact hin (by rw [← ht']; trivial)
  have hquiet := h.quiet hact hother (fun hfree => by rw [hheld] at hfree; cases hfree)
    (by rw [← hy, ← ht', hstore]; exact fun _ => rfl)
    (by rw [← ht']; exact ⟨hplace.1, hplace.2, hkey⟩)
  exact hquiet.kept (Or.inr (by rw [← ht']; rfl))

lemma Linear.step_naming (ht : X.locals i = .naming k) :
    ∃ s' rs', Linear build keys s₀ X' (order ++ madeBy i (.naming k) (X'.locals i)) s' rs' := by
  have hplace := h.places i
  have hin : (X.locals i).Critical := by
    rw [ht]
    trivial
  have hstore := h.inside i hin
  rw [ht] at hplace hstore
  have hstep := hact
  rw [ht] at hstep
  obtain ⟨hy, ht'⟩ := Prod.mk.inj (Option.some.inj hstep)
  have hheld := h.held_inside hact hin (by rw [← ht']; trivial)
  have hquiet := h.quiet hact hother (fun hfree => by rw [hheld] at hfree; cases hfree)
    (by rw [← hy, ← ht', hstore]; exact fun _ => rfl) (by rw [← ht']; exact hplace)
  exact hquiet.kept (Or.inr (by rw [← ht']; rfl))

/-- With its bit the object is there. -/
lemma Linear.step_setting (hkeys : ∀ i, Fits (keys i)) (ht : X.locals i = .setting k) :
    ∃ s' rs', Linear build keys s₀ X' (order ++ madeBy i (.setting k) (X'.locals i)) s' rs' := by
  have hplace := h.places i
  have hstore := h.inside i (by rw [ht]; trivial)
  rw [ht] at hplace hstore
  obtain ⟨hi, hfirst, hkey⟩ := hplace
  have hstep := hact
  rw [ht] at hstep
  obtain ⟨hy, ht'⟩ := Prod.mk.inj (Option.some.inj hstep)
  have hexec : exec build s (call keys i) = some (created s k (keys i), replyOf (some k)) := by
    rw [call, exec, createObject_eq hfirst, if_pos hkey]
    rfl
  have hmakes := h.makes hact hother hi ht'.symm hexec (created_ok h.ok hfirst.1 (hkeys i))
    (fun m hm => by rw [live_created, hm, Bool.true_or])
    (by rw [← hy, hstore]; exact created_eq s k (keys i)) fun m hm => by
      obtain rfl : k = m := Option.some.inj hm
      exact ⟨hfirst.clear, by rw [live_created, decide_eq_true rfl, Bool.or_true]⟩
  exact hmakes.grown rfl (by rw [← ht']; rfl)

lemma Linear.step_unlocking {free : Option ℕ} (ht : X.locals i = .unlocking free) :
    ∃ s' rs',
      Linear build keys s₀ X' (order ++ madeBy i (.unlocking free) (X'.locals i)) s' rs' := by
  have hplace := h.places i
  have hstore := h.inside i (by rw [ht]; trivial)
  rw [ht] at hplace hstore
  replace hstore : X.shared.store = s := hstore
  have hstep := hact
  rw [ht] at hstep
  obtain ⟨hy, ht'⟩ := Prod.mk.inj (Option.some.inj hstep)
  have hquiet := h.quiet hact hother (by rw [← hy]; exact fun _ => hstore)
    (by rw [← hy, ← ht']; exact fun _ => hstore) (by rw [← ht']; exact hplace)
  exact hquiet.kept (Or.inl rfl)

lemma Linear.step_returning (hkeys : ∀ i, Fits (keys i)) {free : Option ℕ}
    (ht : X.locals i = .returning free) :
    ∃ s' rs',
      Linear build keys s₀ X' (order ++ madeBy i (.returning free) (X'.locals i)) s' rs' := by
  have hplace := h.places i
  rw [ht] at hplace
  obtain ⟨hlog, hlive⟩ := hplace
  have hstep := hact
  rw [ht] at hstep
  have hsame : X'.shared = X.shared ∧ X'.locals i = .done (replyOf free).ret := by
    cases free with
    | none =>
      obtain ⟨hy, ht'⟩ := Prod.mk.inj (Option.some.inj hstep)
      exact ⟨hy.symm, ht'.symm⟩
    | some k =>
      obtain ⟨hy, ht'⟩ := Prod.mk.inj (Option.some.inj hstep)
      rw [h.objId_live hkeys (hlive k rfl)] at ht'
      exact ⟨hy.symm, ht'.symm⟩
  obtain ⟨hy, ht'⟩ := hsame
  have hquiet := h.quiet hact hother (by rw [hy]; exact h.outside)
    (by rw [ht']; exact fun hin => hin.elim) (by rw [ht']; exact hlog)
  exact hquiet.kept (Or.inl rfl)

end Cases

/-- Every step of a thread is a step of calls made one after the other. -/
theorem Linear.step (h : Linear build keys s₀ X order s rs) (hkeys : ∀ i, Fits (keys i))
    (hact : act keys i X.shared (X.locals i) = some (X'.shared, X'.locals i))
    (hother : ∀ j, j ≠ i → X'.locals j = X.locals j) :
    ∃ s' rs', Linear build keys s₀ X' (order ++ madeBy i (X.locals i) (X'.locals i)) s' rs' := by
  cases ht : X.locals i with
  | start => exact h.step_start hact hother ht
  | scanning k => exact h.step_scanning hact hother ht
  | marking k => exact h.step_marking hact hother ht
  | naming k => exact h.step_naming hact hother ht
  | setting k => exact h.step_setting hact hother hkeys ht
  | unlocking free => exact h.step_unlocking hact hother ht
  | returning free => exact h.step_returning hact hother hkeys ht
  | done r =>
    rw [ht] at hact
    cases hact

end Step

end Linear

section Runs

variable {X X' : Threads Locked Creator ι} {s s₀ : Store} {order : List ι}
  {rs : List Reply}

/-- What threads that create objects at the same time come to: the store and the numbers that
calls made one after the other in the order `order` give. -/
structure Serial (build : Build) (keys : ι → CString) (s₀ : Store) (X : Threads Locked Creator ι)
    (order : List ι) (s : Store) (rs : List Reply) : Prop where
  run : execAll build s₀ (order.map (call keys)) = some (s, rs)
  once : order.Nodup
  store : X.shared.held = false → X.shared.store = s
  replies : ∀ i r, X.locals i = .done r → (i, { ret := r }) ∈ order.zip rs
  apart : ∀ i j r, X.locals i = .done r → X.locals j = .done r → r ≠ -1 → i = j

lemma Linear.serial (h : Linear build keys s₀ X order s rs) :
    Serial build keys s₀ X order s rs := by
  have hreplies : ∀ i r, X.locals i = .done r → (i, { ret := r }) ∈ order.zip rs := by
    intro i r hi
    have hplace := h.places i
    rwa [hi] at hplace
  refine ⟨h.run, h.nodup, h.outside, hreplies, fun i j r hi hj hr => ?_⟩
  obtain hnone | ⟨k, hk, -⟩ := h.numbers i _ (hreplies i r hi)
  · exact absurd hnone hr
  · exact h.apart i j k (hk ▸ hreplies i r hi) (hk ▸ hreplies j r hj)

/-- Nothing was called yet. -/
lemma linear_start (build : Build) (keys : ι → CString) (h : StoreOk build True s₀) :
    Linear build keys s₀ ⟨⟨s₀, false⟩, fun _ => .start⟩ [] s₀ [] := by
  refine ⟨rfl, h, List.nodup_nil, exclusive_start rfl fun _ hi => hi, fun _ => rfl,
    fun _ hi => hi.elim, fun _ => List.not_mem_nil, fun i r hi => ?_, fun i j k hi => ?_⟩
  · cases hi
  · cases hi

variable [DecidableEq ι]

variable (keys) in
/-- The threads in the order in which their calls are made. -/
def calls : Threads Locked Creator ι → List ι → List ι
  | _, [] => []
  | X, i :: schedule => match advance (act keys) X i with
    | some (X', _) => madeBy i (X.locals i) (X'.locals i) ++ calls X' schedule
    | none => []

lemma calls_append {schedule schedule' : List ι} {us : List Unit}
    (hrun : Machine.run (advance (act keys)) X schedule = some (X', us)) :
    calls keys X (schedule ++ schedule') = calls keys X schedule ++ calls keys X' schedule' := by
  induction schedule generalizing X us with
  | nil =>
    cases hrun
    rfl
  | cons i schedule ih =>
    obtain ⟨X₁, u, us', hstep, hrun', rfl⟩ := run_cons.mp hrun
    simp only [List.cons_append, calls, hstep, ih hrun', List.append_assoc]

lemma Linear.run_of (h : Linear build keys s₀ X order s rs) (hkeys : ∀ i, Fits (keys i))
    {schedule : List ι} {us : List Unit}
    (hrun : Machine.run (advance (act keys)) X schedule = some (X', us)) :
    ∃ s' rs', Linear build keys s₀ X' (order ++ calls keys X schedule) s' rs' := by
  induction schedule generalizing X us order s rs with
  | nil =>
    cases hrun
    exact ⟨s, rs, by rwa [calls, List.append_nil]⟩
  | cons i schedule ih =>
    obtain ⟨X₁, u, us', hstep, hrun', rfl⟩ := run_cons.mp hrun
    obtain ⟨hact, hother⟩ := advance_eq_some.mp hstep
    obtain ⟨s₁, rs₁, h₁⟩ := h.step hkeys hact hother
    obtain ⟨s', rs', h'⟩ := ih h₁ hrun'
    exact ⟨s', rs', by rwa [calls, hstep, ← List.append_assoc]⟩

/-- Whatever the order of their steps, threads that create objects do what calls made one after
the other do, each call between the start and the end of its thread; no two get the same
number. -/
theorem creates_serial (build : Build) (keys : ι → CString) (hkeys : ∀ i, Fits (keys i))
    (s₀ : Store) (hs₀ : StoreOk build True s₀) (schedule : List ι) (X : Threads Locked Creator ι)
    (us : List Unit)
    (hrun : Machine.run (advance (act keys)) ⟨⟨s₀, false⟩, fun _ => .start⟩ schedule =
      some (X, us)) :
    ∃ order s rs, Serial build keys s₀ X order s rs ∧
      ∀ before after X' us', schedule = before ++ after →
        Machine.run (advance (act keys)) ⟨⟨s₀, false⟩, fun _ => .start⟩ before = some (X', us') →
        ∃ first rest, order = first ++ rest ∧
          ∀ i, ((X'.locals i).made = true → i ∈ first) ∧ (X'.locals i = .start → i ∉ first) := by
  obtain ⟨s, rs, h⟩ := (linear_start build keys hs₀).run_of hkeys hrun
  rw [List.nil_append] at h
  refine ⟨_, s, rs, h.serial, ?_⟩
  rintro before after X' us' rfl hbefore
  refine ⟨_, _, calls_append hbefore, fun i => ?_⟩
  obtain ⟨s', rs', h'⟩ := (linear_start build keys hs₀).run_of hkeys hbefore
  rw [List.nil_append] at h'
  have hplace := h'.places i
  generalize X'.locals i = t at hplace
  refine ⟨fun hmade => ?_, fun hstart => ?_⟩
  · cases t with
    | unlocking free => exact (List.of_mem_zip hplace.1).1
    | returning free => exact (List.of_mem_zip hplace.1).1
    | done r => exact (List.of_mem_zip hplace).1
    | start => cases hmade
    | scanning k => cases hmade
    | marking k => cases hmade
    | naming k => cases hmade
    | setting k => cases hmade
  · subst hstart
    exact hplace

/-- Two keys. -/
def twoKeys (i : Fin 2) : CString := if i.val = 0 then keyA else keyB

lemma twoKeys_fits (i : Fin 2) : Fits (twoKeys i) := by
  fin_cases i <;> decide

/-- The first thread has given the lock back and has not returned yet when the second takes it,
and returns while the second is searching. -/
theorem creates_serial_two : ∃ (X : Threads Locked Creator (Fin 2)) (us : List Unit)
    (order : List (Fin 2)) (s : Store) (rs : List Reply),
    Machine.run (advance (act twoKeys)) ⟨⟨objstoreInit blankDevice, false⟩, fun _ => .start⟩
        [0, 0, 0, 0, 0, 0, 1, 1, 0, 1, 1, 1, 1, 1, 1] = some (X, us) ∧
      X.locals 0 = .done 2 ∧ X.locals 1 = .done 3 ∧
        Serial .objfs twoKeys (objstoreInit blankDevice) X order s rs := by
  have hempty := objstoreInit_empty blankDevice_blank
  have hbits : ∀ m, bit (created (objstoreInit blankDevice) 0 keyA).bitMapInode m =
      (bit (objstoreInit blankDevice).bitMapInode m || decide (0 = m)) := fun m => live_created
  have hclear : ∀ m, bit (objstoreInit blankDevice).bitMapInode m = false := hempty.live
  have hfree : FirstFree (created (objstoreInit blankDevice) 0 keyA).bitMapInode slotCount 1 := by
    refine ⟨by norm_num [slotCount_eq], by simp [hbits, hclear], fun m hm => ?_⟩
    obtain rfl : m = 0 := by omega
    simp [hbits, hclear]
  have hlive : (created (objstoreInit blankDevice) 0 keyA).live 0 = true := by
    simp [Store.live, hbits]
  have hpos : 0 < slotCount := by norm_num [slotCount_eq]
  have hmade : Steps twoKeys 0 6 ⟨objstoreInit blankDevice, false⟩ .start
      ⟨created (objstoreInit blankDevice) 0 keyA, false⟩ (.returning (some 0)) :=
    Solo.step trivial rfl (solo_creating hempty.firstSlot
      (keyInObjs (by decide) (twoKeys_fits 0)) (Solo.refl _ _))
  have hsearch : Steps twoKeys 1 2 ⟨created (objstoreInit blankDevice) 0 keyA, false⟩ .start
      ⟨created (objstoreInit blankDevice) 0 keyA, true⟩ (.scanning 1) :=
    Solo.step trivial rfl (Solo.step trivial (act_scanning_live hpos hlive) (Solo.refl _ _))
  have hreturn : Steps twoKeys 0 1 ⟨created (objstoreInit blankDevice) 0 keyA, true⟩
      (.returning (some 0)) ⟨created (objstoreInit blankDevice) 0 keyA, true⟩ (.done 2) :=
    Solo.step trivial (act_returning hpos) (Solo.refl _ _)
  have hrest : Steps twoKeys 1 6 ⟨created (objstoreInit blankDevice) 0 keyA, true⟩ (.scanning 1)
      ⟨created (created (objstoreInit blankDevice) 0 keyA) 1 keyB, false⟩ (.done 3) :=
    solo_creating hfree (keyInObjs (by decide) (twoKeys_fits 1))
      (Solo.step trivial (act_returning hfree.1) (Solo.refl _ _))
  have hrun := ((((hmade.trace (l := fun _ => .start) rfl).append (hsearch.trace rfl)).append
    (hreturn.trace rfl)).append (hrest.trace rfl)).run
  obtain ⟨order, s, rs, hserial, -⟩ := creates_serial .objfs twoKeys twoKeys_fits _ hempty.ok _ _ _
    hrun
  exact ⟨_, _, order, s, rs, hrun, rfl, rfl, hserial⟩

end Runs

end OsAssignments.ConcurrentCreates
