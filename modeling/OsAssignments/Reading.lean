import OsAssignments.Accounts
import OsAssignments.Fetching

/-!
# Reading a range of an object

`objstore_read` walks all block pointers from the first on, skipping down a
counter before it starts to read. Indirect blocks that are skipped as a whole are
read all the same, so they must be readable; what they hold is not looked at.
-/
namespace OsAssignments

open ByteMemory Bitmap ObjectTable Builds
open BlockCache (ValidBlock)

variable {build : Build} {strict : Prop}

/-- Between the two states only the device moved, and its blocks read as before. -/
structure SameBlocks (build : Build) (d d' : Device) : Prop where
  ok : (device build).Ok d'
  views : ∀ b, ValidBlock b → (device build).view d' b = (device build).view d b
  low : ∀ p, p < writeOffset → d'.disk.image p = d.disk.image p

namespace SameBlocks

variable {d d' d'' : Device} {b : ℤ}

theorem refl (h : (device build).Ok d) : SameBlocks build d d := ⟨h, fun _ _ => rfl, fun _ _ => rfl⟩

theorem trans (h : SameBlocks build d d') (h' : SameBlocks build d' d'') :
    SameBlocks build d d'' :=
  ⟨h'.ok, fun b hb => (h'.views b hb).trans (h.views b hb),
    fun p hp => (h'.low p hp).trans (h.low p hp)⟩

theorem load (h : (device build).Ok d) (hb : Readable build b) :
    SameBlocks build d (loadBlock build d b).1 :=
  ⟨loadBlock_ok h hb, fun _ hb' => loadBlock_view h hb hb', fun _ hp => loadBlock_low h hb hp⟩

end SameBlocks

section Objects

variable {s : Store} {n : ℕ}

/-- The contents of logical block `k` of the object in slot `n`. -/
abbrev blockOf (build : Build) (s : Store) (n k : ℕ) : Block :=
  view build s (value build s (.ofBlock n k) - writeOffset)

/-- A data block or an indirect block is fetched as it is seen. -/
lemma SameBlocks.fetches {d : Device} {ptr : ℤ} (hv : ValidBlock (ptr - writeOffset)) :
    Fetches build (SameBlocks build d) ptr ((device build).view d (ptr - writeOffset)) :=
  fun _ hd => ⟨hd.trans (.load hd.ok (Or.inl hv)), (loadBlock_val hd.ok hv).trans (hd.views _ hv)⟩

/-- The slot of a mapped block is its reference. -/
lemma slotIn_eq {L : ℕ} (hL : L < 4100) (hne : value build s (.ofBlock n L) ≠ 0) :
    slotIn (fun j => view build s (indirect s.objs n j - writeOffset)) s n L =
      value build s (.ofBlock n L) := by
  by_cases h4 : L < 4
  · rw [slotIn, if_pos h4, value_ofBlock_lt h4]
  · have ht := table_ne_zero h4 hL hne
    rw [slotIn, if_neg h4, Ref.ofBlock_entry h4 hL, value, if_neg ht]

/-- A range of mapped blocks is read page by page, whatever the build; the cached
build needs every indirect block on the way. The fetches are those planned. -/
theorem objstoreRead_planned (h : StoreOk build strict s) (hin : InObjs n) {size offset : ℕ}
    (hmapped : ∀ i < totalBlocks size, offset / blockSize + i < 4100 ∧
      value build s (.ofBlock n (offset / blockSize + i)) ≠ 0)
    (htables : ∀ j < 4, 0 < totalBlocks size →
      4 + 1024 * j < offset / blockSize + totalBlocks size →
      Readable build (indirect s.objs n j - writeOffset)) :
    ∃ dev, objstoreRead build s (n + 2) size offset =
        some ({ s with dev := dev }, (size : ℤ),
          pageBytes (fun i => blockOf build s n (offset / blockSize + i)) size) ∧
      SameBlocks build s.dev dev ∧
      readFetches build s n size offset = (readPlan (offset / blockSize) (totalBlocks size)).map
        (Sum.elim (indirect s.objs n)
          (slotIn (fun j => view build s (indirect s.objs n j - writeOffset)) s n)) := by
  have htab : ∀ i < totalBlocks size, ¬offset / blockSize + i < 4 → ∀ d, SameBlocks build s.dev d →
      (fetch build d (indirect s.objs n ((offset / blockSize + i - 4) / 1024))).2 =
        view build s (indirect s.objs n ((offset / blockSize + i - 4) / 1024) - writeOffset) := by
    intro i hi hge d hd
    obtain ⟨hlt, hne⟩ := hmapped i hi
    have ht := h.indirect_valid (by omega) (table_ne_zero hge hlt hne)
    exact (SameBlocks.fetches ht d hd).2
  exact objstoreRead_loop hin
    (fun j => view build s (indirect s.objs n j - writeOffset))
    (fun i => blockOf build s n (offset / blockSize + i)) (SameBlocks.refl h.device)
    (fun i hi => (hmapped i hi).1)
    (fun j hj hpos hlt d hd => hd.trans (.load hd.ok (htables j hj hpos hlt))) htab fun i hi => by
      obtain ⟨hlt, hne⟩ := hmapped i hi
      rw [slotIn_eq hlt hne]
      exact SameBlocks.fetches (h.valid hne)

theorem objstoreRead_spec (h : StoreOk build strict s) (hin : InObjs n) {size offset : ℕ}
    (hmapped : ∀ i < totalBlocks size, offset / blockSize + i < 4100 ∧
      value build s (.ofBlock n (offset / blockSize + i)) ≠ 0)
    (htables : ∀ j < 4, 4 + 1024 * j < offset / blockSize + totalBlocks size →
      Readable build (indirect s.objs n j - writeOffset)) :
    ∃ dev, objstoreRead build s (n + 2) size offset =
        some ({ s with dev := dev }, (size : ℤ),
          pageBytes (fun i => blockOf build s n (offset / blockSize + i)) size) ∧
      SameBlocks build s.dev dev := by
  obtain ⟨dev, hread, hdev, -⟩ := objstoreRead_planned h hin hmapped
    fun j hj _ hlt => htables j hj hlt
  exact ⟨dev, hread, hdev⟩

/-- The same range is read when the first `c` blocks of the object are mapped and the
range ends inside them; then the indirect blocks on the way are there. -/
theorem objstoreRead_written (h : StoreOk build strict s) (hin : InObjs n) {size offset c : ℕ}
    (hc : c ≤ 4100) (hmapped : ∀ k < c, value build s (.ofBlock n k) ≠ 0)
    (hrange : offset + size ≤ blockSize * c) :
    ∃ dev, objstoreRead build s (n + 2) size offset =
        some ({ s with dev := dev }, (size : ℤ),
          pageBytes (fun i => blockOf build s n (offset / blockSize + i)) size) ∧
      SameBlocks build s.dev dev := by
  have hrange' : offset + size ≤ 4096 * c := hrange
  have hpages : offset / 4096 + totalBlocks size ≤ c := by
    have hsize : totalBlocks size ≤ c - offset / 4096 := totalBlocks_le.mpr (by omega)
    omega
  refine objstoreRead_spec h hin (fun i hi => ?_) fun j hj hlt => ?_
  · have hk : offset / 4096 + i < c := by omega
    exact ⟨hk.trans_le hc, hmapped _ hk⟩
  · -- the first block behind a table is mapped, so the table is there
    have hlt' : 4 + 1024 * j < offset / 4096 + totalBlocks size := hlt
    have hne := table_ne_zero (by omega) (by omega) (hmapped (4 + 1024 * j) (by omega))
    rw [show (4 + 1024 * j - 4) / 1024 = j by omega] at hne
    exact Or.inl (h.indirect_valid hj hne)

/-- The loop over the direct pointers, for one page. -/
lemma readPointers_one (build : Build) (ptr : ℕ → ℤ) {k L : ℕ} (hL : L < k) (i : ℕ) (d : Device)
    (pages : ℕ → Block) :
    readPointers build ptr k i ⟨d, L, 1, 0, pages⟩ =
      ⟨(fetch build d (ptr (i + L))).1, 0, 0, 1,
        Function.update pages 0 (fetch build d (ptr (i + L))).2⟩ := by
  induction k generalizing i L with
  | zero => omega
  | succ k ih =>
    rw [readPointers, if_pos (by norm_num)]
    cases L with
    | zero =>
      rw [readPointer, if_neg (lt_irrefl 0)]
      exact readPointers_done _ _ _ rfl
    | succ L =>
      rw [readPointer, if_pos (by simp), show i + (L + 1) = i + 1 + L by omega]
      exact ih (Nat.lt_of_succ_lt_succ hL) (i + 1)

/-- One page behind a direct pointer is read through it, whatever it names. -/
theorem objstoreRead_direct (build : Build) (s : Store) (hin : InObjs n) {L size offset : ℕ}
    (hoff : offset / blockSize = L) (hL : L < 4) (hone : totalBlocks size = 1) :
    ∃ dev, objstoreRead build s (n + 2) size offset =
      some ({ s with dev := dev }, (size : ℤ),
        pageBytes (fun _ => (loadBlock build s.dev (direct s.objs n L - writeOffset)).2) size) := by
  have hid : ¬((n : ℤ) + 2 < 2) := by omega
  have hn : ((n : ℤ) + 2 - 2).toNat = n := by omega
  have hpointers := readPointers_one build (direct s.objs n) hL 0 s.dev fun _ _ => 0
  have hindirects (d : Device) (i : ℕ) (pages : ℕ → Block) :
      readIndirects build (indirect s.objs n) 4 0 ⟨d, 0, 0, i, pages⟩ = ⟨d, 0, 0, i, pages⟩ :=
    if_neg (lt_irrefl 0)
  have hpage : ∀ i < totalBlocks size, Function.update (fun _ _ => 0 : ℕ → Block) 0
      (fetch build s.dev (direct s.objs n (0 + L))).2 i =
        (loadBlock build s.dev (direct s.objs n L - writeOffset)).2 := by
    intro i hi
    obtain rfl : i = 0 := by omega
    rw [Function.update_self, Nat.zero_add, fetch]
  refine ⟨(fetch build s.dev (direct s.objs n (0 + L))).1, ?_⟩
  rw [objstoreRead, if_neg hid]
  simp only [hn, if_pos hin, hone, hoff, hpointers, hindirects, pageBytes_congr hpage]

/-- All that `objstore_read` can do to the globals, and what it returns. -/
theorem read_cases {s' : Store} {objid r : ℤ} {size offset : ℕ} {bs : List UInt8}
    (h : objstoreRead build s objid size offset = some (s', r, bs)) :
    (objid < 2 ∧ s' = s ∧ r = -1 ∧ bs = []) ∨
      ∃ (n : ℕ) (dev : Device), objid = n + 2 ∧ InObjs n ∧ s' = { s with dev := dev } ∧
        r = size := by
  unfold objstoreRead at h
  dsimp only at h
  split_ifs at h with hid hin
  · rw [Option.some.injEq, Prod.mk.injEq, Prod.mk.injEq] at h
    exact Or.inl ⟨hid, h.1.symm, h.2.1.symm, h.2.2.symm⟩
  · simp only [Option.some.injEq, Prod.mk.injEq] at h
    exact Or.inr ⟨(objid - 2).toNat, _, by omega, hin, h.1.symm, h.2.1.symm⟩

/-- Reading moves no reference. -/
lemma SameBlocks.value (h : StoreOk build strict s) {dev : Device}
    (hd : SameBlocks build s.dev dev) :
    OsAssignments.value build { s with dev := dev } = OsAssignments.value build s :=
  value_congr (fun _ _ _ => rfl) fun _ _ hl hz => hd.views _ (h.indirect_valid hl hz)

theorem SameBlocks.storeOk (h : StoreOk build strict s) {dev : Device}
    (hd : SameBlocks build s.dev dev) : StoreOk build strict { s with dev := dev } := by
  refine ⟨hd.ok, ?_, h.clean, h.ids, h.slots⟩
  rw [hd.value h]
  exact h.accounts

end Objects

end OsAssignments
