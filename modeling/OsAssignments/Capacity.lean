import OsAssignments.FileSystem

/-!
# Space on the disk

How much of the disk is free is a matter of the files alone: every page takes a block,
and so does every indirect block with a page behind it. So callers that know the files
know which callbacks the store has room for.
-/
namespace OsAssignments.FileSystem

open ByteMemory Bitmap ObjectTable Builds
open LastWrite (ones)
open Machine (Along Trace along_of_forall)

variable {build : Build} {s s' : Store} {fs : Files} {f : File} {n k l size : ℕ}

section Usage

/-- Page `4 + 1024 * l` or one of the next 1023 is there, so that indirect block `l` is needed. -/
def File.HasTable (f : File) (l : ℕ) : Prop := ∃ e < 1024, (f.page (4 + 1024 * l + e)).isSome

instance (f : File) : DecidablePred f.HasTable :=
  fun l => inferInstanceAs (Decidable (∃ e < 1024, (f.page (4 + 1024 * l + e)).isSome))

def File.pages (f : File) : Finset ℕ := (Finset.range 4100).filter fun k => (f.page k).isSome

def File.tables (f : File) : Finset ℕ := (Finset.range 4).filter f.HasTable

/-- The data blocks a file takes. -/
def File.blocks (f : File) : ℕ := f.pages.card + f.tables.card

/-- The slots that lie in the object table. -/
@[irreducible] def objectSlots : ℕ := objectBlock * blockSize / 96

/-- What all files weigh together. -/
def Files.total (w : File → ℕ) (fs : Files) : ℕ :=
  ∑ n ∈ Finset.range objectSlots, (fs.file n).elim 0 w

/-- The data blocks all files take. -/
abbrev Files.used (fs : Files) : ℕ := fs.total File.blocks

lemma mem_pages : k ∈ f.pages ↔ k < 4100 ∧ (f.page k).isSome := by
  rw [File.pages, Finset.mem_filter, Finset.mem_range]

lemma mem_tables : l ∈ f.tables ↔ l < 4 ∧ f.HasTable l := by
  rw [File.tables, Finset.mem_filter, Finset.mem_range]

lemma objectSlots_eq : objectSlots = 961194 := by
  unfold objectSlots
  rfl

lemma inObjs_iff_lt : InObjs n ↔ n < objectSlots := by rw [inObjs_iff, objectSlots_eq]

/-- A page behind an indirect block needs it. -/
lemma hasTable_of_page (hk : ¬k < 4) (h : (f.page k).isSome) : f.HasTable ((k - 4) / 1024) := by
  refine ⟨(k - 4) % 1024, Nat.mod_lt _ (by norm_num), ?_⟩
  rwa [show 4 + 1024 * ((k - 4) / 1024) + (k - 4) % 1024 = k by omega]

/-- The blocks that one more page takes. -/
def File.cost (f : File) (k : ℕ) : ℕ := if ¬k < 4 ∧ ¬f.HasTable ((k - 4) / 1024) then 2 else 1

lemma hasTable_fill {buf : Memory} (hnone : f.page k = none) :
    (f.fill buf size k).HasTable l ↔ f.HasTable l ∨ ¬k < 4 ∧ l = (k - 4) / 1024 := by
  constructor
  · rintro ⟨e, he, hsome⟩
    by_cases hek : 4 + 1024 * l + e = k
    · exact Or.inr ⟨by omega, by omega⟩
    · simp only [File.fill, Function.update_of_ne hek] at hsome
      exact Or.inl ⟨e, he, hsome⟩
  · rintro (⟨e, he, hsome⟩ | ⟨hk, rfl⟩)
    · have hek : 4 + 1024 * l + e ≠ k := by
        rintro rfl
        rw [hnone] at hsome
        cases hsome
      refine ⟨e, he, ?_⟩
      simp only [File.fill, Function.update_of_ne hek]
      exact hsome
    · refine hasTable_of_page hk ?_
      simp only [File.fill, Function.update_self, Option.isSome_some]

lemma blocks_fill {buf : Memory} (hk : k < 4100) (hnone : f.page k = none) :
    (f.fill buf size k).blocks = f.blocks + f.cost k := by
  have hpages : (f.fill buf size k).pages.card = f.pages.card + 1 := File.card_fill hk hnone buf
  have htables : (f.fill buf size k).tables.card + 1 = f.tables.card + f.cost k := by
    by_cases hnew : ¬k < 4 ∧ ¬f.HasTable ((k - 4) / 1024)
    · have hinsert : (f.fill buf size k).tables = insert ((k - 4) / 1024) f.tables := by
        ext l
        rw [Finset.mem_insert, mem_tables, mem_tables, hasTable_fill hnone]
        constructor
        · rintro ⟨hl, htable | ⟨-, heq⟩⟩
          · exact Or.inr ⟨hl, htable⟩
          · exact Or.inl heq
        · rintro (rfl | ⟨hl, htable⟩)
          · exact ⟨by omega, Or.inr ⟨hnew.1, rfl⟩⟩
          · exact ⟨hl, Or.inl htable⟩
      have hmem : (k - 4) / 1024 ∉ f.tables := fun hmem => hnew.2 (mem_tables.mp hmem).2
      rw [hinsert, Finset.card_insert_of_notMem hmem, File.cost, if_pos hnew]
    · have hsame : (f.fill buf size k).tables = f.tables := by
        ext l
        rw [mem_tables, mem_tables, hasTable_fill hnone]
        refine and_congr_right fun _ => or_iff_left_of_imp fun ⟨hdirect, heq⟩ => ?_
        rw [heq]
        by_contra htable
        exact hnew ⟨hdirect, htable⟩
      rw [hsame, File.cost, if_neg hnew]
  rw [File.blocks, File.blocks]
  omega

/-- A sum of which one term changes. -/
lemma sum_changed {ι : Type*} [DecidableEq ι] {S : Finset ι} {g h : ι → ℕ} {i : ι} (hi : i ∈ S)
    (hsame : ∀ j ∈ S, j ≠ i → h j = g j) : ∑ j ∈ S, h j + g i = ∑ j ∈ S, g j + h i := by
  have hrest : ∑ j ∈ S.erase i, h j = ∑ j ∈ S.erase i, g j := Finset.sum_congr rfl fun j hj =>
    hsame j (Finset.mem_of_mem_erase hj) (Finset.ne_of_mem_erase hj)
  rw [← Finset.add_sum_erase S h hi, ← Finset.add_sum_erase S g hi, hrest]
  omega

lemma total_update {x : Option File} (w : File → ℕ) (fs' : Files) (hn : n < objectSlots)
    (hfile : fs'.file = Function.update fs.file n x) :
    fs'.total w + (fs.file n).elim 0 w = fs.total w + x.elim 0 w := by
  have hsum := sum_changed (g := fun i => (fs.file i).elim 0 w)
    (h := fun i => (fs'.file i).elim 0 w) (Finset.mem_range.mpr hn)
    fun i _ hi => by rw [hfile, Function.update_of_ne hi]
  rwa [hfile, Function.update_self, ← hfile] at hsum

lemma total_noFiles (w : File → ℕ) : noFiles.total w = 0 := by
  unfold Files.total
  exact Finset.sum_eq_zero fun _ _ => rfl

/-- A new file. -/
lemma total_create {name : CString} (w : File → ℕ) (hn : n < objectSlots)
    (hfile : fs.file n = none) :
    (fs.create name n).total w = fs.total w + w ⟨0, fun _ => none⟩ := by
  have htotal := total_update w (fs.create name n) hn rfl
  rwa [hfile, Option.elim_none, Option.elim_some, Nat.add_zero] at htotal

lemma blocks_empty : (⟨0, fun _ => none⟩ : File).blocks = 0 := by
  have hpages : (⟨0, fun _ => none⟩ : File).pages = ∅ :=
    Finset.filter_eq_empty_iff.mpr fun _ _ hsome => by cases hsome
  have htables : (⟨0, fun _ => none⟩ : File).tables = ∅ :=
    Finset.filter_eq_empty_iff.mpr fun _ _ ⟨_, _, hsome⟩ => by cases hsome
  rw [File.blocks, hpages, htables]
  rfl

lemma used_write {buf : Memory} (hn : n < objectSlots) (hf : fs.file n = some f) (hk : k < 4100)
    (hnone : f.page k = none) : (fs.write n f buf size k).used = fs.used + f.cost k := by
  have hused := total_update File.blocks (fs.write n f buf size k) hn rfl
  rw [hf, Option.elim_some, Option.elim_some, blocks_fill hk hnone] at hused
  rw [Files.used, Files.used]
  omega

end Usage

section Space

/-- The reference of a page, or of an indirect block. -/
def partRef (n : ℕ) : ℕ ⊕ ℕ → Ref :=
  Sum.elim (Ref.ofBlock n) fun l => .pointer n ⟨4 + l % 4, by omega⟩

/-- What a file takes blocks for. -/
def File.parts (f : File) : Finset (ℕ ⊕ ℕ) := f.pages.disjSum f.tables

def Files.parts (fs : Files) : Finset (Σ _ : ℕ, ℕ ⊕ ℕ) :=
  (Finset.range objectSlots).sigma fun n => (fs.file n).elim ∅ File.parts

lemma card_parts (fs : Files) : fs.parts.card = fs.used := by
  rw [Files.parts, Finset.card_sigma, Files.used, Files.total]
  refine Finset.sum_congr rfl fun n _ => ?_
  cases fs.file n with
  | none => rfl
  | some f => exact Finset.card_disjSum f.pages f.tables

lemma mem_parts {x : Σ _ : ℕ, ℕ ⊕ ℕ} :
    x ∈ fs.parts ↔ x.1 < objectSlots ∧ ∃ f, fs.file x.1 = some f ∧ x.2 ∈ f.parts := by
  rw [Files.parts, Finset.mem_sigma, Finset.mem_range]
  cases fs.file x.1 with
  | none => simp
  | some f => simp

lemma inl_mem_parts : .inl k ∈ f.parts ↔ k ∈ f.pages := by
  rw [File.parts, Finset.inl_mem_disjSum]

lemma inr_mem_parts : .inr l ∈ f.parts ↔ l ∈ f.tables := by
  rw [File.parts, Finset.inr_mem_disjSum]

lemma partRef_table (hl : l < 4) :
    partRef n (.inr l) = .pointer n ⟨4 + l, Nat.add_lt_add_left hl 4⟩ := by
  rw [partRef, Sum.elim_inr]
  simp only [Nat.mod_eq_of_lt hl]

lemma ofBlock_entry_eq (n : ℕ) (l : Fin 4) (e : Fin 1024) :
    Ref.ofBlock n (4 + 1024 * l + e) = .entry n l e := by
  rw [Ref.ofBlock_entry (by omega) (by omega), Ref.entry.injEq, Fin.ext_iff, Fin.ext_iff]
  refine ⟨rfl, ?_, ?_⟩
  · show (4 + 1024 * (l : ℕ) + e - 4) / 1024 = l
    omega
  · show (4 + 1024 * (l : ℕ) + e - 4) % 1024 = e
    omega

/-- A page is not an indirect block. -/
lemma partRef_ne {m : ℕ} (hl : l < 4) : partRef n (.inl k) ≠ partRef m (.inr l) := by
  intro heq
  rw [partRef_table hl] at heq
  have hdata : (partRef n (.inl k)).IsData := Ref.isData_ofBlock n k
  rw [heq] at hdata
  have hlt : 4 + l < 4 := hdata
  omega

/-- Different parts have different references. -/
lemma partRef_injOn (fs : Files) :
    Set.InjOn (fun x : Σ _ : ℕ, ℕ ⊕ ℕ => partRef x.1 x.2) fs.parts := by
  rintro ⟨n, x⟩ hx ⟨m, y⟩ hy heq
  rw [Finset.mem_coe, mem_parts] at hx hy
  obtain ⟨f, -, hx⟩ := hx.2
  obtain ⟨g, -, hy⟩ := hy.2
  rcases Finset.mem_disjSum.mp hx with ⟨k, hk, rfl⟩ | ⟨l, hl, rfl⟩ <;>
    rcases Finset.mem_disjSum.mp hy with ⟨i, hi, rfl⟩ | ⟨j, hj, rfl⟩
  · obtain ⟨rfl, rfl⟩ := Ref.ofBlock_inj (mem_pages.mp hk).1 (mem_pages.mp hi).1 heq
    rfl
  · exact absurd heq (partRef_ne (mem_tables.mp hj).1)
  · exact absurd heq.symm (partRef_ne (mem_tables.mp hl).1)
  · simp only [partRef_table (mem_tables.mp hl).1, partRef_table (mem_tables.mp hj).1] at heq
    rw [Ref.pointer.injEq, Fin.mk.injEq] at heq
    have hlj : l = j := by omega
    rw [heq.1, hlj]

/-- The pages of a file are the pages with a block. -/
lemma page_isSome (h : Holds build s fs) (hf : fs.file n = some f) (hk : k < 4100) :
    (f.page k).isSome ↔ value build s (.ofBlock n k) ≠ 0 := by
  rw [Option.isSome_iff_ne_none]
  exact not_congr ((h.stores n f hf).holes k hk)

/-- A part of a file has a block. -/
lemma value_part {x : ℕ ⊕ ℕ} (h : Holds build s fs) (hf : fs.file n = some f) (hx : x ∈ f.parts) :
    value build s (partRef n x) ≠ 0 := by
  rcases Finset.mem_disjSum.mp hx with ⟨k, hk, rfl⟩ | ⟨l, hl, rfl⟩
  · obtain ⟨hlt, hsome⟩ := mem_pages.mp hk
    exact (page_isSome h hf hlt).mp hsome
  · obtain ⟨hlt, e, he, hsome⟩ := mem_tables.mp hl
    have hk : 4 + 1024 * l + e < 4100 := by omega
    have htable := table_ne_zero (by omega) hk ((page_isSome h hf hk).mp hsome)
    rw [show (4 + 1024 * l + e - 4) / 1024 = l by omega] at htable
    rw [partRef_table hlt]
    exact htable

/-- A block that is referenced is taken for a part of a file. -/
lemma part_of_value {r : Ref} (h : Holds build s fs) (hr : value build s r ≠ 0) :
    ∃ x ∈ fs.parts, partRef x.1 x.2 = r := by
  have hlive : s.live r.slot = true := by
    by_contra hdead
    exact hr (h.names.store.value_dead (by simpa using hdead))
  obtain ⟨f, hf⟩ := Option.isSome_iff_exists.mp ((h.file r.slot).mpr hlive)
  have hslot := inObjs_iff_lt.mp (h.slots r.slot hlive)
  have hpage : ∀ k < 4100, value build s (.ofBlock r.slot k) ≠ 0 → (f.page k).isSome :=
    fun k hk => (page_isSome h hf hk).mpr
  suffices hpart : ∃ x ∈ f.parts, partRef r.slot x = r by
    obtain ⟨x, hx, heq⟩ := hpart
    refine ⟨⟨r.slot, x⟩, ?_, heq⟩
    rw [mem_parts]
    exact ⟨hslot, f, hf, hx⟩
  cases r with
  | pointer n j =>
    by_cases hj : (j : ℕ) < 4
    · have heq : Ref.ofBlock n j = .pointer n j := Ref.ofBlock_lt hj
      rw [← heq] at hr
      have hsome := hpage j (by omega) hr
      exact ⟨.inl j, inl_mem_parts.mpr (mem_pages.mpr ⟨by omega, hsome⟩), heq⟩
    · have hl : (j : ℕ) - 4 < 4 := by omega
      have hplace : (⟨4 + ((j : ℕ) - 4), by omega⟩ : Fin 8) = j :=
        Fin.ext (show 4 + ((j : ℕ) - 4) = j by omega)
      obtain ⟨e, he⟩ := h.rooted n ⟨j - 4, hl⟩ (by rwa [hplace])
      rw [← ofBlock_entry_eq] at he
      have hsome := hpage _ (show 4 + 1024 * ((j : ℕ) - 4) + e < 4100 by omega) he
      refine ⟨.inr (j - 4), inr_mem_parts.mpr (mem_tables.mpr ⟨hl, e, e.isLt, hsome⟩), ?_⟩
      show partRef n (.inr (j - 4)) = .pointer n j
      rw [partRef_table hl, hplace]
  | entry n l e =>
    have heq := ofBlock_entry_eq n l e
    rw [← heq] at hr
    have hsome := hpage _ (show 4 + 1024 * (l : ℕ) + e < 4100 by omega) hr
    exact ⟨.inl _, inl_mem_parts.mpr (mem_pages.mpr ⟨by omega, hsome⟩), heq⟩

/-- The blocks that are free and the blocks that the files take are all there are. -/
theorem Holds.space (h : Holds build s fs) :
    (freeBits s.bitMapData dataBits).card + fs.used = dataBits := by
  have haccounts := h.names.store.accounts
  have hbit : ∀ b, bit s.bitMapData b = true → b < dataBits := by
    intro b hb
    obtain ⟨r, hr⟩ := haccounts.ledger.owned trivial b hb
    exact haccounts.lt (haccounts.owner_iff.mp hr)
  have hused : ∀ b, b ∈ (Finset.range dataBits).filter (fun k => ¬bit s.bitMapData k = false) ↔
      bit s.bitMapData b = true := by
    intro b
    rw [Finset.mem_filter, Finset.mem_range, Bool.not_eq_false]
    exact and_iff_right_of_imp (hbit b)
  have hparts := haccounts.ledger.card_eq (fun x : Σ _ : ℕ, ℕ ⊕ ℕ => partRef x.1 x.2)
    (partRef_injOn fs) (fun r => ?_) hused
  · rw [← card_parts, hparts, freeBits, Finset.card_filter_add_card_filter_not,
      Finset.card_range]
  · rw [Option.isSome_iff_ne_none]
    constructor
    · intro hne
      exact part_of_value h fun hzero => hne (owner_zero hzero)
    · rintro ⟨x, hx, rfl⟩
      rw [mem_parts] at hx
      obtain ⟨f, hf, hpart⟩ := hx.2
      rw [owner, if_neg (value_part h hf hpart)]
      exact Option.some_ne_none _

end Space

section Calls

/-- The lowest number that no file has. -/
noncomputable def Files.lowest (fs : Files) : ℕ := sInf {n | fs.file n = none}

/-- One callback on files, with a new file at the lowest number. -/
noncomputable def onLowest (fs : Files) (c : Callback) : Option (Files × Result) :=
  onFiles fs (fs.lowest, c)

/-- What the callers guarantee, said of the files alone: as in `Served`, and what is written fits
on the disk. -/
def Allowed (fs : Files) : Callback → Prop
  | .getattr key | .unlink key | .openFile key => Fits key.name
  | .create key => Fits key.name ∧ fs.number key.name = none ∧
      ∃ n < objectSlots, fs.file n = none
  | .rename oldkey newkey => Fits oldkey.name ∧ Fits newkey.name ∧ fs.number newkey.name = none
  | .read fh size offset => fh < 2 ∨ ∃ (n : ℕ) (f : File), fh = n + 2 ∧ fs.file n = some f ∧
      blockSize ∣ offset ∧ (∀ i < totalBlocks size, offset / blockSize + i ∈ f.pages) ∧
      ∀ j < 4, 4 + 1024 * j < offset / blockSize + totalBlocks size → f.HasTable j
  | .write fh buf size offset => fh < 2 ∨ ∃ (n : ℕ) (f : File), fh = n + 2 ∧
      fs.file n = some f ∧ blockSize ∣ offset ∧ size ≤ blockSize ∧ offset / blockSize < 4100 ∧
      f.page (offset / blockSize) = none ∧
      (fs.write n f buf size (offset / blockSize)).used ≤ dataBits
  | .release _ => True

/-- An indirect block is there when the file has a page behind it. -/
lemma indirect_iff (h : Holds build s fs) (hf : fs.file n = some f) (hl : l < 4) :
    indirect s.objs n l ≠ 0 ↔ f.HasTable l := by
  constructor
  · intro hne
    obtain ⟨e, he⟩ := h.rooted n ⟨l, hl⟩ hne
    rw [← ofBlock_entry_eq] at he
    have hlt : 4 + 1024 * l + (e : ℕ) < 4100 := by omega
    exact ⟨e, e.isLt, (page_isSome h hf hlt).mpr he⟩
  · intro htable
    have hne := value_part h hf (inr_mem_parts.mpr (mem_tables.mpr ⟨hl, htable⟩))
    rwa [partRef_table hl] at hne

lemma writeCost_eq (h : Holds build s fs) (hf : fs.file n = some f) (hk : k < 4100) :
    writeCost s n k = f.cost k := by
  have hiff : NeedsTable s n k ↔ ¬k < 4 ∧ ¬f.HasTable ((k - 4) / 1024) :=
    and_congr_right fun _ => by rw [← indirect_iff h hf (by omega), not_not]
  rw [writeCost, File.cost]
  by_cases hneed : NeedsTable s n k
  · rw [if_pos hneed, if_pos (hiff.mp hneed)]
  · rw [if_neg hneed, if_neg fun hnew => hneed (hiff.mpr hnew)]

/-- The store has room for what the files allow. -/
theorem Allowed.served {c : Callback} (h : Holds build s fs) (ha : Allowed fs c) :
    Served build s c := by
  have hfree : ∀ {name}, Fits name → fs.number name = none → ∀ n, s.named name n = false := by
    intro name hk hnone n
    by_contra hn
    rw [(h.number name hk n).mpr (by simpa using hn)] at hnone
    cases hnone
  have hlive : ∀ {n f}, fs.file n = some f → s.live n = true := by
    intro n f hf
    rw [← h.file, hf, Option.isSome_some]
  cases c with
  | getattr key | unlink key | openFile key => exact ha
  | release fh => trivial
  | create key =>
    obtain ⟨hk, hnone, n, hn, hempty⟩ := ha
    refine ⟨hk, hfree hk hnone, n, inObjs_iff_lt.mpr hn, ?_⟩
    rw [Bool.eq_false_iff, ne_eq, ← h.file, hempty]
    exact Bool.false_ne_true
  | rename oldkey newkey => exact ⟨ha.1, ha.2.1, hfree ha.2.1 ha.2.2⟩
  | read fh size offset =>
    refine ha.imp id fun ⟨n, f, hfh, hf, halign, hpages, htables⟩ => ?_
    have hvalue : ∀ k ∈ f.pages, value build s (.ofBlock n k) ≠ 0 := fun k hk =>
      value_part h hf (inl_mem_parts.mpr hk)
    refine ⟨n, hfh, hlive hf, halign, fun i hi => ?_, fun j hj hlt => ?_⟩
    · exact ⟨(mem_pages.mp (hpages i hi)).1, hvalue _ (hpages i hi)⟩
    · obtain ⟨e, he, hsome⟩ := htables j hj hlt
      exact ⟨4 + 1024 * j + e, by omega, by omega,
        hvalue _ (mem_pages.mpr ⟨by omega, hsome⟩)⟩
  | write fh buf size offset =>
    refine ha.imp id fun ⟨n, f, hfh, hf, halign, hsize, hblock, hnone, hused⟩ => ?_
    have hslot := inObjs_iff_lt.mp (h.slots n (hlive hf))
    have hspace := h.space
    rw [used_write hslot hf hblock hnone] at hused
    refine ⟨n, hfh, hlive hf, halign, hsize, hblock, ((h.stores n f hf).holes _ hblock).mp hnone,
      ?_⟩
    rw [writeCost_eq h hf hblock]
    omega

/-- The search for a free slot finds the lowest number. -/
lemma lowest_eq (h : Holds build s fs) (hn : FirstFree s.bitMapInode slotCount n) :
    fs.lowest = n := by
  have hfile : ∀ i, fs.file i = none ↔ s.live i = false := fun i => by
    rw [← Bool.not_eq_true, ← h.file, Option.not_isSome_iff_eq_none]
  have hempty : n ∈ {i | fs.file i = none} := (hfile n).mpr (FirstFree.clear hn)
  refine le_antisymm (Nat.sInf_le hempty) (le_csInf ⟨n, hempty⟩ fun i hi => ?_)
  by_contra hlt
  have hused : (!s.live i) = false := hn.2.2 i (by omega)
  rw [(hfile i).mp hi] at hused
  cases hused

/-- An allowed callback is answered as it is on files, with the lowest number for a new one. -/
theorem allowed_answered {c : Callback} (h : Holds build s fs) (ha : Allowed fs c) :
    ∃ s' fs' r, callback build s c = some (s', r) ∧ onLowest fs c = some (fs', r) ∧
      Holds build s' fs' := by
  obtain ⟨n, s', fs', r, hc, hfiles, h'⟩ := callback_answered h (ha.served h)
  refine ⟨s', fs', r, hc, ?_, h'⟩
  cases c with
  | create key =>
    have hfh : r = { ret := 0, fh := some (n + 2 : ℕ) } := by
      rw [onFiles] at hfiles
      split_ifs at hfiles
      rw [Option.some.injEq, Prod.mk.injEq] at hfiles
      exact hfiles.2.symm
    obtain ⟨⟨t, z⟩, hcreate, hret⟩ := Option.map_eq_some_iff.mp hc
    rw [Prod.mk.injEq] at hret
    have hr := hret.2
    rcases create_cases hcreate with ⟨-, -, rfl⟩ | ⟨x, hx, -, -, rfl⟩
    · rw [if_pos (by norm_num), hfh] at hr
      cases hr
    · have hpos : ¬((x + 2 : ℕ) : ℤ) < 0 := by omega
      rw [if_neg hpos, hfh] at hr
      simp only [Result.mk.injEq, Option.some.injEq, Nat.cast_inj, true_and, and_true] at hr
      have hxn : x = n := by omega
      rw [onLowest, lowest_eq h hx, hxn]
      exact hfiles
  | _ => exact hfiles

end Calls

end OsAssignments.FileSystem
