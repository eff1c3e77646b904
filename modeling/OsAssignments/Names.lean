import OsAssignments.StoreRuns

/-!
# Names of live objects

A call that names a record leaves the names of the others alone, so names stay
distinct as long as the new one is not in use elsewhere.
-/
namespace OsAssignments

open ByteMemory Bitmap ObjectTable Builds

variable {build : Build} {s s' : Store} {key key' : CString} {n m : ℕ}

/-- No two live objects have equal keys. -/
def UniqueKeys (s : Store) : Prop :=
  ∀ key n m, s.named key n = true → s.named key m = true → n = m

/-- Distinct names, each spelled out inside its field. -/
structure NamesOk (build : Build) (s : Store) : Prop where
  store : StoreOk build True s
  unique : UniqueKeys s
  spelled : ∀ n, s.live n = true → ∃ key, Fits key ∧ s.named key n = true

/-- Slot `n` was given the name `key`, and the other slots kept theirs. -/
structure Assigned (s s' : Store) (n : ℕ) (key : CString) : Prop where
  self : ∀ k, s'.named k n = true ↔ key = k
  other : ∀ m k, m ≠ n → Fits k → s'.named k m = s.named k m
  live : ∀ m, m ≠ n → s'.live m = s.live m

lemma named_inj (h : s.named key n = true) (h' : s.named key' n = true) : key = key' :=
  keyIs_inj (named_iff.mp h).2 (named_iff.mp h').2

lemma created_assigned (hk : Fits key) : Assigned s (created s n key) n key := by
  refine ⟨fun k => ?_, fun m k hm hk' => ?_, fun m hm => ?_⟩
  · rw [named_iff, live_created, created, keyIs_setKey_self]
    simp
  · rw [Store.named, Store.named, live_created, keyIs_created_ne hk hk' (Ne.symm hm),
      decide_eq_false (Ne.symm hm), Bool.or_false]
  · rw [live_created, decide_eq_false (Ne.symm hm), Bool.or_false]

lemma renamed_assigned (hk : Fits key') (hn : s.live n = true) :
    Assigned s (renamed s n key') n key' := by
  have hlive : ∀ m, (renamed s n key').live m = s.live m := fun _ => rfl
  refine ⟨fun k => ?_, fun m k hm hk' => ?_, fun m _ => hlive m⟩
  · rw [named_iff, hlive, renamed, keyIs_setKey_self]
    simp [hn]
  · rw [Store.named, Store.named, hlive, renamed, keyIs_setKey_ne hk hk' (Ne.symm hm)]

lemma Assigned.of_same {t : Store} (h : Assigned s s' n key) (hk : Fits key)
    (hlive : ∀ m, t.live m = s'.live m)
    (hkeys : ∀ m k, Fits k → keyIs t.objs m k = keyIs s'.objs m k) : Assigned s t n key := by
  have hnamed : ∀ m k, Fits k → t.named k m = s'.named k m := fun m k hk' => by
    rw [Store.named, Store.named, hlive, hkeys m k hk']
  have hself : t.named key n = true := (hnamed n key hk).trans ((h.self key).mpr rfl)
  refine ⟨fun k => ⟨fun hkn => named_inj hself hkn, fun he => he ▸ hself⟩, fun m k hm hk' => ?_,
    fun m hm => (hlive m).trans (h.live m hm)⟩
  exact (hnamed m k hk').trans (h.other m k hm hk')

section Steps

variable (h : NamesOk build s)
include h

lemma NamesOk.keyAt_of (hn : s.named key n = true) : s.KeyAt key n := by
  obtain ⟨k, _, hk⟩ := exists_firstBelow (h.store.slots n (named_iff.mp hn).1) hn
  rwa [h.unique key n k hn hk.2.1]

/-- A name in use nowhere else is a fine name. -/
lemma assigned_ok (ha : Assigned s s' n key) (hk : Fits key)
    (hfree : ∀ m, m ≠ n → s.named key m = false) (hs' : StoreOk build True s') :
    NamesOk build s' := by
  have hspell : ∀ m, s'.live m = true → ∃ k, Fits k ∧ s'.named k m = true := by
    intro m hm
    by_cases hmn : m = n
    · exact ⟨key, hk, hmn ▸ (ha.self key).mpr rfl⟩
    · rw [ha.live m hmn] at hm
      obtain ⟨k, hk', hmk⟩ := h.spelled m hm
      exact ⟨k, hk', by rwa [ha.other m k hmn hk']⟩
  refine ⟨hs', fun k a b ha' hb' => ?_, hspell⟩
  obtain ⟨k₀, hk₀, hak₀⟩ := hspell a (named_iff.mp ha').1
  obtain rfl := named_inj ha' hak₀
  have hclash : ∀ m, m ≠ n → s'.named k m = true → s'.named k n = true → False := by
    intro m hm hmk hnk
    obtain rfl := (ha.self k).mp hnk
    rw [ha.other m _ hm hk₀, hfree m hm] at hmk
    contradiction
  by_cases han : a = n <;> by_cases hbn : b = n
  · rw [han, hbn]
  · exact (hclash b hbn hb' (han ▸ ha')).elim
  · exact (hclash a han ha' (hbn ▸ hb')).elim
  · rw [ha.other a k han hk₀] at ha'
    rw [ha.other b k hbn hk₀] at hb'
    exact h.unique k a b ha' hb'

lemma destroyed_names (hn : s.KeyAt key n) :
    NamesOk build (destroyed build s n) ∧ (destroyed build s n).NoKey key := by
  have he := destroyed_emptied h.store hn.live
  have hlive : ∀ m, (destroyed build s n).live m = true → s.live m = true ∧ m ≠ n := by
    intro m hm
    rw [he.lives, Bool.and_eq_true, decide_eq_true_eq] at hm
    exact hm
  have hnamed : ∀ m k, Fits k → (destroyed build s n).named k m = true →
      s.named k m = true ∧ m ≠ n := by
    intro m k hk hm
    obtain ⟨hl, hkey⟩ := named_iff.mp hm
    rw [he.keys m k hk] at hkey
    exact ⟨named_iff.mpr ⟨(hlive m hl).1, hkey⟩, (hlive m hl).2⟩
  have hspell : ∀ m, (destroyed build s n).live m = true →
      ∃ k, Fits k ∧ (destroyed build s n).named k m = true := by
    intro m hm
    obtain ⟨k, hk, hmk⟩ := h.spelled m (hlive m hm).1
    exact ⟨k, hk, named_iff.mpr ⟨hm, (he.keys m k hk).trans (named_iff.mp hmk).2⟩⟩
  refine ⟨⟨destroyed_ok h.store hn.live, fun k a b ha hb => ?_, hspell⟩, fun m _ => ?_⟩
  · obtain ⟨k₀, hk₀, hak₀⟩ := hspell a (named_iff.mp ha).1
    obtain rfl := named_inj ha hak₀
    exact h.unique k a b (hnamed a k hk₀ ha).1 (hnamed b k hk₀ hb).1
  · by_contra hm
    have hm' : (destroyed build s n).named key m = true := by simpa using hm
    obtain ⟨k₀, hk₀, hmk₀⟩ := hspell m (named_iff.mp hm').1
    obtain rfl := named_inj hm' hmk₀
    obtain ⟨hms, hmn⟩ := hnamed m key hk₀ hm'
    exact hmn (h.unique key m n hms hn.2.1)

/-- Calls that touch no name keep the names. -/
lemma NamesOk.of_same (hs' : StoreOk build True s') (hlive : ∀ m, s'.live m = s.live m)
    (hkeys : ∀ m k, Fits k → keyIs s'.objs m k = keyIs s.objs m k) : NamesOk build s' := by
  have hnamed : ∀ m k, Fits k → s'.named k m = s.named k m := fun m k hk => by
    rw [Store.named, Store.named, hlive, hkeys m k hk]
  have hspell : ∀ m, s'.live m = true → ∃ k, Fits k ∧ s'.named k m = true := by
    intro m hm
    obtain ⟨k, hk, hmk⟩ := h.spelled m (hlive m ▸ hm)
    exact ⟨k, hk, (hnamed m k hk).trans hmk⟩
  refine ⟨hs', fun k a b ha hb => ?_, hspell⟩
  obtain ⟨k₀, hk₀, hak₀⟩ := hspell a (named_iff.mp ha).1
  obtain rfl := named_inj ha hak₀
  rw [hnamed _ _ hk₀] at ha hb
  exact h.unique k a b ha hb

end Steps

lemma empty_names {d : Device} (hs : Empty d s) : NamesOk build s := by
  refine ⟨hs.ok, fun key n m hn _ => ?_, fun n hn => ?_⟩
  · have := (named_iff.mp hn).1
    rw [hs.live] at this
    contradiction
  · rw [hs.live] at hn
    contradiction

end OsAssignments
