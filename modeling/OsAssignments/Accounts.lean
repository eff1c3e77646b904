import OsAssignments.Ownership
import OsAssignments.Slots

/-!
# References of the object store

A reference is a block pointer of a record or an entry of an indirect block, and
its value is the integer stored there, zero when it points nowhere. The accounts
of a store tie the values to the data bitmap. They are kept about values and
bitmaps alone; what a call does to the values is left to the modules about calls.
-/
namespace OsAssignments

open ByteMemory Bitmap ObjectTable Builds
open BlockCache (ValidBlock validBlock_iff)

inductive Ref where
  /-- `direct[j]` of the record in slot `n`, or `indirect[j - 4]`. -/
  | pointer (n : ℕ) (j : Fin 8)
  /-- Entry `e` of the block of `indirect[l]`. -/
  | entry (n : ℕ) (l : Fin 4) (e : Fin 1024)
  deriving DecidableEq

namespace Ref

def slot : Ref → ℕ
  | .pointer n _ => n
  | .entry n _ _ => n

local instance neZero_tables : NeZero 4 := ⟨by decide⟩
local instance neZero_entries : NeZero 1024 := ⟨by decide⟩

/-- The reference of logical block `k` of the object in slot `n`. -/
def ofBlock (n k : ℕ) : Ref :=
  if h : k < 4 then .pointer n ⟨k, by omega⟩
  else .entry n (Fin.ofNat 4 ((k - 4) / 1024)) (Fin.ofNat 1024 (k - 4))

/-- References to blocks with the data of an object, not to indirect blocks. -/
def IsData : Ref → Prop
  | .pointer _ j => j < 4
  | .entry _ _ _ => True

@[simp] theorem slot_ofBlock (n k : ℕ) : (ofBlock n k).slot = n := by
  unfold ofBlock
  split_ifs <;> rfl

lemma ofBlock_lt {n k : ℕ} (h : k < 4) : ofBlock n k = .pointer n ⟨k, by omega⟩ := dif_pos h

lemma ofBlock_ge {n k : ℕ} (h : ¬k < 4) :
    ofBlock n k = .entry n (Fin.ofNat 4 ((k - 4) / 1024)) (Fin.ofNat 1024 (k - 4)) := dif_neg h

lemma ofBlock_entry {n k : ℕ} (h : ¬k < 4) (h' : k < 4100) :
    ofBlock n k = .entry n ⟨(k - 4) / 1024, by omega⟩ ⟨(k - 4) % 1024, by omega⟩ := by
  rw [ofBlock_ge h, entry.injEq, Fin.ext_iff, Fin.ext_iff]
  refine ⟨rfl, ?_, ?_⟩ <;> simp only [Fin.ofNat]
  omega

lemma isData_ofBlock (n k : ℕ) : (ofBlock n k).IsData := by
  by_cases h : k < 4
  · rw [ofBlock_lt h]
    exact h
  · rw [ofBlock_ge h]
    trivial

/-- Logical blocks below 4100 have references of their own. -/
theorem ofBlock_inj {n n' k k' : ℕ} (hk : k < 4100) (hk' : k' < 4100)
    (h : ofBlock n k = ofBlock n' k') : n = n' ∧ k = k' := by
  by_cases h4 : k < 4 <;> by_cases h4' : k' < 4
  · rw [ofBlock_lt h4, ofBlock_lt h4', pointer.injEq, Fin.mk.injEq] at h
    exact h
  · rw [ofBlock_lt h4, ofBlock_ge h4'] at h
    contradiction
  · rw [ofBlock_ge h4, ofBlock_lt h4'] at h
    contradiction
  · rw [ofBlock_ge h4, ofBlock_ge h4', entry.injEq, Fin.ext_iff, Fin.ext_iff] at h
    simp only [Fin.ofNat] at h
    omega

end Ref

/-- The contents of data block `b` as the build reads it. -/
abbrev view (build : Build) (s : Store) (b : ℤ) : Block := (device build).view s.dev b

/-- The integer stored at a reference. -/
def value (build : Build) (s : Store) : Ref → ℤ
  | .pointer n j => pointer s.objs n j
  | .entry n l e =>
    if indirect s.objs n l = 0 then 0
    else entry (view build s (indirect s.objs n l - writeOffset)) e

/-- The data block a value names. -/
def owner (v : Ref → ℤ) (r : Ref) : Option ℕ :=
  if v r = 0 then none else some (v r - writeOffset).toNat

lemma validBlock_ofNat {b : ℕ} (hb : b < dataBits) : ValidBlock b := by
  rw [dataBits_eq] at hb
  rw [validBlock_iff]
  omega

/-- Every non-zero value names a data block, and the ledger of the named blocks
against the bitmap is in order. -/
structure Accounts (strict : Prop) (v : Ref → ℤ) (w : Words) : Prop where
  range : ∀ r, v r ≠ 0 → ∃ b : ℕ, b < dataBits ∧ v r = writeOffset + b
  ledger : Ledger strict (owner v) (fun b => bit w b = true)

lemma position_ne_zero (b : ℕ) : writeOffset + b ≠ 0 := by
  have := writeOffset_eq
  omega

@[simp] lemma position_sub (b : ℕ) : writeOffset + (b : ℤ) - writeOffset = b :=
  add_sub_cancel_left writeOffset (b : ℤ)

lemma owner_eq {v : Ref → ℤ} {r : Ref} {b : ℕ} (h : v r = writeOffset + b) :
    owner v r = some b := by
  rw [owner, if_neg (h ▸ position_ne_zero b), h]
  congr 1
  omega

lemma owner_zero {v : Ref → ℤ} {r : Ref} (h : v r = 0) : owner v r = none := if_pos h

namespace Accounts

variable {strict : Prop} {v : Ref → ℤ} {w w' : Words} {r r' : Ref} {b : ℕ}

lemma owner_iff (h : Accounts strict v w) : owner v r = some b ↔ v r = writeOffset + b := by
  refine ⟨fun ho => ?_, owner_eq⟩
  have hne : v r ≠ 0 := by
    intro hz
    rw [owner_zero hz] at ho
    contradiction
  obtain ⟨c, _, hc⟩ := h.range r hne
  rw [owner_eq hc, Option.some.injEq] at ho
  rw [hc, ho]

theorem used (h : Accounts strict v w) (hr : v r = writeOffset + b) : bit w b = true :=
  h.ledger.marked r b (owner_eq hr)

theorem lt (h : Accounts strict v w) (hr : v r = writeOffset + b) : b < dataBits := by
  obtain ⟨c, hc, hrc⟩ := h.range r (hr ▸ position_ne_zero b)
  rw [hr] at hrc
  have : b = c := by exact_mod_cast add_left_cancel hrc
  exact this ▸ hc

/-- No block is referenced twice. -/
theorem inj (h : Accounts strict v w) (hr : v r ≠ 0) (he : v r = v r') : r = r' := by
  obtain ⟨b, _, hb⟩ := h.range r hr
  exact h.ledger.inj r r' b (owner_eq hb) (owner_eq (he ▸ hb))

/-- The block of a clear bit is not referenced. -/
theorem ne_of_clear (h : Accounts strict v w) (hb : bit w b = false) (r : Ref) :
    v r ≠ writeOffset + b := by
  intro hr
  rw [h.used hr] at hb
  contradiction

/-- A free block taken and attached to a reference. -/
theorem attach (h : Accounts strict v w) (hlt : b < dataBits) (hb : bit w b = false)
    (hempty : strict → v r = 0) :
    Accounts strict (Function.update v r (writeOffset + b)) (setBit w b) := by
  refine ⟨fun q hq => ?_, ?_⟩
  · by_cases hqr : q = r
    · subst hqr
      exact ⟨b, hlt, Function.update_self _ _ _⟩
    · rw [Function.update_of_ne hqr] at hq ⊢
      exact h.range q hq
  · refine h.ledger.attach (r := r) (b := b) (by simp [hb]) (fun hs => owner_zero (hempty hs))
      (owner_eq (Function.update_self _ _ _)) (fun q hq => ?_) fun x => ?_
    · rw [owner, owner, Function.update_of_ne hq]
    · simp only [bit_setBit, Bool.or_eq_true, decide_eq_true_eq]
      rw [eq_comm (a := b)]

/-- The block of a reference given back by toggling its bit. -/
theorem release (h : Accounts strict v w) (hr : v r = writeOffset + b) :
    Accounts strict (Function.update v r 0) (toggleBit w b) := by
  have hused := h.used hr
  refine ⟨fun q hq => ?_, ?_⟩
  · by_cases hqr : q = r
    · subst hqr
      simp at hq
    · rw [Function.update_of_ne hqr] at hq ⊢
      exact h.range q hq
  · refine h.ledger.release (owner_eq hr) (owner_zero (Function.update_self _ _ _))
      (fun q hq => ?_) fun x => ?_
    · rw [owner, owner, Function.update_of_ne hq]
    · rw [bit_toggleBit]
      by_cases hx : b = x
      · subst hx
        simp [hused]
      · simp [hx, Ne.symm hx]

/-- Clearing a bit that no reference needs. -/
theorem toggle (h : Accounts False v w) (hfree : ∀ r, v r ≠ writeOffset + b) :
    Accounts False v (toggleBit w b) := by
  refine ⟨h.range, h.ledger.inj, fun r x hr => ?_, fun hs => hs.elim⟩
  have hv := h.owner_iff.mp hr
  have hx : b ≠ x := fun he => hfree r (he ▸ hv)
  simpa [hx] using h.used hv

end Accounts

/-- The invariant of the store. Strict stores lose no block. -/
structure StoreOk (build : Build) (strict : Prop) (s : Store) : Prop where
  device : (device build).Ok s.dev
  accounts : Accounts strict (value build s) s.bitMapData
  clean : ∀ n, s.live n = false → objSize s.objs n = 0 ∧ ∀ j < 8, pointer s.objs n j = 0
  ids : ∀ n, s.live n = true → objId s.objs n = n + 2
  slots : ∀ n, s.live n = true → n < slotCount

section Values

variable {build : Build} {strict : Prop} {s s' : Store} {n k : ℕ} {r : Ref}

/-- An entry is read from its indirect block. -/
lemma value_entry_congr {l : Fin 4} {e : Fin 1024}
    (hp : indirect s'.objs n l = indirect s.objs n l)
    (hview : indirect s.objs n l ≠ 0 → view build s' (indirect s.objs n l - writeOffset) =
      view build s (indirect s.objs n l - writeOffset)) :
    value build s' (.entry n l e) = value build s (.entry n l e) := by
  simp only [value, hp]
  split_ifs with hz
  · rfl
  · rw [hview hz]

/-- Values are read from the pointers and from the indirect blocks. -/
lemma value_congr (hp : ∀ n j, j < 8 → pointer s'.objs n j = pointer s.objs n j)
    (hview : ∀ n l, l < 4 → indirect s.objs n l ≠ 0 →
      view build s' (indirect s.objs n l - writeOffset) =
        view build s (indirect s.objs n l - writeOffset)) : value build s' = value build s := by
  funext r
  cases r with
  | pointer n j => exact hp n j j.isLt
  | entry n l e => exact value_entry_congr (hp n (4 + l) (by omega)) (hview n l l.isLt)

lemma value_ofBlock_lt (h : k < 4) : value build s (.ofBlock n k) = direct s.objs n k := by
  rw [Ref.ofBlock_lt h]
  rfl

/-- Mapped blocks beyond the direct ones have an indirect block. -/
lemma table_ne_zero (hk : ¬k < 4) (hk' : k < 4100) (h : value build s (.ofBlock n k) ≠ 0) :
    indirect s.objs n ((k - 4) / 1024) ≠ 0 := by
  have hmod : (k - 4) / 1024 % 4 = (k - 4) / 1024 := by omega
  rw [Ref.ofBlock_ge hk] at h
  simp only [value, Fin.ofNat, hmod] at h
  intro hz
  rw [if_pos hz] at h
  contradiction

/-- The search result is no part of the invariant. -/
lemma StoreOk.recall (h : StoreOk build strict s) (temp : Option ℕ) :
    StoreOk build strict { s with temp := temp } :=
  ⟨h.device, h.accounts, h.clean, h.ids, h.slots⟩

lemma StoreOk.valid (h : StoreOk build strict s) (hr : value build s r ≠ 0) :
    ValidBlock (value build s r - writeOffset) := by
  obtain ⟨b, hb, hv⟩ := h.accounts.range r hr
  rw [dataBits_eq] at hb
  rw [hv, validBlock_iff]
  omega

/-- The block of an indirect pointer, marked in the bitmap. -/
lemma StoreOk.indirect_block (h : StoreOk build strict s) {l : ℕ} (hl : l < 4)
    (hne : indirect s.objs n l ≠ 0) :
    ∃ c : ℕ, c < dataBits ∧ indirect s.objs n l = writeOffset + c ∧ bit s.bitMapData c = true := by
  obtain ⟨c, hc, hv⟩ := h.accounts.range (.pointer n ⟨4 + l, by omega⟩) hne
  exact ⟨c, hc, hv, h.accounts.used hv⟩

/-- An indirect block is not a free block. -/
lemma StoreOk.indirect_ne_free (h : StoreOk build strict s) {l : ℕ} (hl : l < 4)
    (hne : indirect s.objs n l ≠ 0) {b : ℕ} (hb : bit s.bitMapData b = false) :
    indirect s.objs n l - writeOffset ≠ b := by
  obtain ⟨c, _, hv, hused⟩ := h.indirect_block hl hne
  intro he
  have hcb : c = b := by omega
  rw [hcb, hb] at hused
  contradiction

lemma StoreOk.indirect_valid (h : StoreOk build strict s) {l : ℕ} (hl : l < 4)
    (hne : indirect s.objs n l ≠ 0) : ValidBlock (indirect s.objs n l - writeOffset) :=
  h.valid (r := .pointer n ⟨4 + l, by omega⟩) hne

/-- Two indirect pointers to one block are the same. -/
lemma StoreOk.indirect_inj (h : StoreOk build strict s) {n' l l' : ℕ} (hl : l < 4) (hl' : l' < 4)
    (hne : indirect s.objs n l ≠ 0) (he : indirect s.objs n l = indirect s.objs n' l') :
    n = n' ∧ l = l' := by
  have hr : Ref.pointer n ⟨4 + l, by omega⟩ = .pointer n' ⟨4 + l', by omega⟩ :=
    h.accounts.inj hne he
  rw [Ref.pointer.injEq, Fin.mk.injEq] at hr
  omega

/-- A data block is not an indirect block. -/
lemma StoreOk.data_ne_indirect (h : StoreOk build strict s) (hd : r.IsData) {l : ℕ} (hl : l < 4)
    (hr : value build s r ≠ 0) : value build s r ≠ indirect s.objs n l := by
  intro he
  have hp : r = .pointer n ⟨4 + l, by omega⟩ := h.accounts.inj hr he
  rw [hp] at hd
  have hlt : 4 + l < 4 := hd
  omega

/-- A referenced block is not a free block. -/
lemma StoreOk.value_ne_free (h : StoreOk build strict s) {b : ℕ}
    (hb : bit s.bitMapData b = false) : value build s r - writeOffset ≠ b := by
  intro he
  exact h.accounts.ne_of_clear hb r (by omega)

/-- The references of a slot without an object are empty. -/
lemma StoreOk.value_dead (h : StoreOk build strict s) (hn : s.live r.slot = false) :
    value build s r = 0 := by
  cases r with
  | pointer n j => exact (h.clean n hn).2 j j.isLt
  | entry n l e => exact if_pos ((h.clean n hn).2 (4 + l) (by omega))

end Values

end OsAssignments
