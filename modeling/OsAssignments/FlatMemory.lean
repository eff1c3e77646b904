import OsAssignments.FrameAccounting
import OsAssignments.Shrinking

/-!
# The memory that a process sees

Seen from the process memory is flat: bytes by address, on pages that appear with the
first access and go with SHRINK. Of the table, the frames and the faults nothing
shows but what a page holds when it appears, which is anything.
-/
namespace OsAssignments.FlatMemory

open Paging RadixTree PagingInvariant PageFaults Processes FrameAccounting
open WriteCall (sysWrite sysWrite_reads samePage_or canonical_between valid_of_ne isvalid_cases)
open Shrinking (GivenBack pathsBelow mem_pathsBelow freePages_cleared)
open Machine (Along)

variable {α : Type} {A : Allocator α} {k k' : Kernel α} {a b address : Word} {write : Bool}
variable {s : MmSeg}

section Flat

/-- The number of the page of an address. -/
def pageOf (a : Word) : ℕ := a.toNat / 4096

instance (m : MmSegment) (a : Word) : Decidable (Holds m a) := inferInstanceAs (Decidable (_ ∧ _))

/-- The memory of a process: its segments, the pages that have appeared, and their bytes. -/
structure Flat where
  mms : MmSeg → MmSegment
  appeared : ℕ → Bool
  bytes : Word → BitVec 8

/-- What a page holds when it appears. -/
abbrev Contents := Word → BitVec 8

namespace Flat

/-- The segment of an address. -/
def segment (m : Flat) (a : Word) : Option MmSeg :=
  [MmSeg.data, .rodata, .stack, .code].find? fun s => decide (Holds (m.mms s) a)

/-- Whether an access makes the page of an address in a segment appear. -/
def grows (m : Flat) (write : Bool) (a : Word) : MmSeg → Bool
  | .data => a < (m.mms .data).nextFree
  | .rodata => a < (m.mms .rodata).nextFree && !write
  | .stack => a < (m.mms .stack).limit
  | .code => false

def appear (m : Flat) (contents : Contents) (a : Word) : Flat where
  mms := m.mms
  appeared n := n == pageOf a || m.appeared n
  bytes b := if pageOf b = pageOf a then contents b else m.bytes b

def store (m : Flat) (a : Word) (byte : BitVec 8) : Flat :=
  { m with bytes := Function.update m.bytes a byte }

/-- An access, which ends the process when it is not allowed. -/
def access (m : Flat) (contents : Contents) (write : Bool) (a : Word) : Option Flat :=
  (m.segment a).bind fun s =>
    if write = true ∧ ¬MayWrite (m.mms s).accessFlags then none
    else if m.appeared (pageOf a) then some m
    else if m.grows write a s then some (m.appear contents a) else none

def resize (m : Flat) (s : MmSeg) (w : Word) : MmSeg → MmSegment :=
  Function.update m.mms s { m.mms s with nextFree := w }

/-- EXPAND by `n` pages. -/
def expand (m : Flat) (n flag : Word) : Flat × Word :=
  let segment := m.mms (requested flag)
  if segment.limit.toNat < segment.nextFree.toNat + 4096 * n.toNat then (m, 0)
  else ({ m with mms := m.resize (requested flag) (segment.nextFree + n * 4096) },
    segment.nextFree)

/-- SHRINK by `n` pages: those above the new end are gone. -/
def shrink (m : Flat) (n flag : Word) : Flat × Word :=
  let segment := m.mms (requested flag)
  let w := segment.nextFree - n * 4096
  if segment.nextFree.toNat < segment.start.toNat + 4096 * n.toNat then (m, 0)
  else ({ m with
    mms := m.resize (requested flag) w
    appeared := fun p => m.appeared p && !(pageOf w ≤ p && p < pageOf segment.nextFree) }, w)

/-- WRITE of `n` bytes, with what is printed. -/
def print (m : Flat) (a n : Word) : Word × List (BitVec 8) :=
  if 1024 < n.toNat then (-1, [])
  else if m.appeared (pageOf a) && m.appeared (pageOf (a + n - 1)) then
    (n, (List.range n.toNat).map fun i => m.bytes (a + BitVec.ofNat 64 i))
  else (-1, [])

end Flat

/-- One instruction on flat memory; a process that is gone has none. -/
def flatStep (id : BitVec 32) : Option Flat → Contents × Instr → Option (Option Flat × Response)
  | none, _ => some (none, .gone)
  | some m, (contents, .load a) => match m.access contents false a with
    | some m => some (some m, .byte (m.bytes a))
    | none => some (none, .gone)
  | some m, (contents, .store a byte) => match m.access contents true a with
    | some m => some (some (m.store a byte), .stored)
    | none => some (none, .gone)
  | some _, (_, .divByZero) => some (none, .gone)
  | some m, (_, .syscall n param1 param2) =>
    if n = syscallExit then some (none, .gone)
    else if n = syscallGetpid then some (some m, .returned (id.setWidth 64) [])
    else if n = syscallWrite then
      some (some m, .returned (m.print param1 param2).1 (m.print param1 param2).2)
    else if n = syscallExpand then
      some (some (m.expand param1 param2).1, .returned (m.expand param1 param2).2 [])
    else if n = syscallShrink then
      some (some (m.shrink param1 param2).1, .returned (m.shrink param1 param2).2 [])
    else some (some m, .returned (-1) [])

end Flat

section View

/-- The process `k` as one that has the flat memory `m`. -/
structure Sees (A : Allocator α) (m : Flat) (k : Kernel α) : Prop where
  mms : m.mms = k.ctx.mms
  sound : Sound A k
  leaf : LeafGuarded k
  low : ∀ s, (k.ctx.mms s).limit.toNat < 2 ^ 47 ∧ (k.ctx.mms s).nextFree.toNat < 2 ^ 47
  code : ∀ a, Canonical a → Holds (k.ctx.mms .code) a → Valid k a →
    (k.WriteAlong (path a) ↔ MayWrite (k.ctx.mms .code).accessFlags) ∧
      (LeafWritable k a ↔ MayWrite (k.ctx.mms .code).accessFlags)
  opened : ∀ a, Canonical a → Valid k a → OpenAlong k (path a)
  placed : ∀ a, Canonical a → Valid k a → ∃ s, Holds (k.ctx.mms s) a
  appeared : ∀ a, Canonical a → (m.appeared (pageOf a) = true ↔ Valid k a)
  bytes : ∀ a, Canonical a → Valid k a → kernelLoad k a = some (m.bytes a)

/-- A process that is gone has no memory. -/
inductive SeesProcess (A : Allocator α) : Option Flat → Process α → Prop
  | running {m : Flat} {k : Kernel α} : Sees A m k → SeesProcess A (some m) (.running k)
  | exited (k : Kernel α) : SeesProcess A none (.exited k)

/-- What a process and the allocator are relied on for: addresses are canonical, requests do not
wrap, and there are frames for a page that a fault may enter. -/
def Served (A : Allocator α) (k : Kernel α) : Instr → Prop
  | .load a => Canonical a ∧ ∀ s, accepting k.ctx a (faultCode k false a) = some s →
      (supply A (needs k a) k.frames).isSome
  | .store a _ => Canonical a ∧ ∀ s, accepting k.ctx a (faultCode k true a) = some s →
      (supply A (needs k a) k.frames).isSome
  | .divByZero => True
  | .syscall n param1 param2 =>
    (n = syscallWrite → param2.toNat ≤ 1024 →
      Canonical param1 ∧ Canonical (param1 + param2 - 1)) ∧
    (n = syscallExpand →
      (k.ctx.mms (requested param2)).nextFree.toNat + 4096 * param1.toNat < 2 ^ 64) ∧
    (n = syscallShrink → 4096 * param1.toNat ≤ (k.ctx.mms (requested param2)).nextFree.toNat)

/-- The same for a process that may be gone. -/
def ServedProcess (A : Allocator α) : Process α → Instr → Prop
  | .running k, i => Served A k i
  | .exited _, _ => True

end View

section Bytes

variable {w : Word} {j l : ℕ} {byte : BitVec 8} {page : Frame}

/-- The bytes of a word of which one was replaced. -/
lemma extract_setByte (hj : j < 8) (hl : l < 8) : (setByte w j byte).extractLsb' (8 * l) 8 =
    if l = j then byte else w.extractLsb' (8 * l) 8 := by
  have hmask : ∀ m, (255 : Word).getLsbD m = decide (m < 8) := by
    intro m
    have hones : (255 : Word) = (BitVec.allOnes 8).setWidth 64 := by decide
    rw [hones, BitVec.getLsbD_setWidth, BitVec.getLsbD_allOnes]
    by_cases hm : m < 8 <;> simp [hm]
    omega
  ext n hn
  rw [BitVec.getElem_extractLsb', setByte, BitVec.getLsbD_or, BitVec.getLsbD_and,
    BitVec.getLsbD_not, BitVec.getLsbD_shiftLeft, BitVec.getLsbD_shiftLeft, hmask,
    BitVec.getLsbD_setWidth]
  split_ifs with hlj
  · subst hlj
    have hlow : 8 * l + n < 64 := by omega
    have hoff : 8 * l + n - 8 * l = n := by omega
    have hge : ¬8 * l + n < 8 * l := by omega
    have hlt : n < 64 := by omega
    simp [hlow, hoff, hge, hlt, hn]
  · rw [BitVec.getElem_extractLsb']
    by_cases hbelow : l < j
    · have hlt : 8 * l + n < 8 * j := by omega
      have hlow : 8 * l + n < 64 := by omega
      simp [hlt, hlow]
    · have hge : ¬8 * l + n < 8 * j := by omega
      have hfar : ¬8 * l + n - 8 * j < 8 := by omega
      have hlow : 8 * l + n < 64 := by omega
      have hbyte : byte.getLsbD (8 * l + n - 8 * j) = false := BitVec.getLsbD_of_ge _ _ (by omega)
      simp [hge, hfar, hlow, hbyte]

/-- The bytes of all pages after one byte was stored. -/
lemma byteIn_store {f : Frame} : byteIn (k.store page (shift a 3)
    (setByte (k.mem page (shift a 3)) (a &&& 7).toNat byte)).mem f b =
      if f = page ∧ shift b 3 = shift a 3 ∧ (b &&& 7).toNat = (a &&& 7).toNat then byte
      else byteIn k.mem f b := by
  have hlt : ∀ c : Word, (c &&& 7).toNat < 8 := by
    intro c
    have hseven : (7 : Word).toNat = 2 ^ 3 - 1 := rfl
    rw [BitVec.toNat_and, hseven, Nat.and_two_pow_sub_one_eq_mod]
    omega
  by_cases hword : f = page ∧ shift b 3 = shift a 3
  · obtain ⟨rfl, hshift⟩ := hword
    rw [byteIn, byteIn, hshift, store_mem_self, extract_setByte (hlt a) (hlt b)]
    simp only [true_and]
  · rw [byteIn, byteIn, store_mem_ne hword, if_neg fun h => hword ⟨h.1, h.2.1⟩]

/-- Addresses of one page differ in the word or in the byte. -/
lemma eq_of_sameByte (hpage : pageOf a = pageOf b) (hword : shift a 3 = shift b 3)
    (hbyte : (a &&& 7).toNat = (b &&& 7).toNat) : a = b := by
  have hmask : ∀ c : Word, (c &&& 7).toNat = c.toNat % 8 := by
    intro c
    have hseven : (7 : Word).toNat = 2 ^ 3 - 1 := rfl
    rw [BitVec.toNat_and, hseven, Nat.and_two_pow_sub_one_eq_mod]
  rw [← BitVec.toNat_inj, shift_toNat, shift_toNat] at hword
  rw [hmask, hmask] at hbyte
  unfold pageOf at hpage
  rw [← BitVec.toNat_inj]
  omega

lemma path_iff (ha : Canonical a) (hb : Canonical b) : path a = path b ↔ pageOf a = pageOf b :=
  ⟨samePage_of_path ha hb, path_of_samePage⟩

end Bytes

section Facts

variable {m : Flat} {page : Frame}

lemma kernelLoad_eq (ha : Canonical a) (hpage : k.lookup (path a) = some page) :
    kernelLoad k a = some (byteIn k.mem page a) := by
  have htr : translate 1 k.mem k.ctx.pgd a = some page := hpage
  rw [kernelLoad, if_pos ha, htr, Option.map_some]

lemma not_valid_iff : ¬Valid k a ↔ k.lookup (path a) = none := by
  rw [Valid, isvalid_iff, not_exists, Option.eq_none_iff_forall_ne_some]

lemma translate_of_not_valid (h : ¬Valid k a) :
    translate (needed write) k.mem k.ctx.pgd a = none := by
  rw [not_valid_iff] at h
  rw [Option.eq_none_iff_forall_ne_some]
  intro page htr
  have hone : needed write &&& 1 = 1 := by cases write <;> decide
  rw [lookup_of_translate hone htr] at h
  cases h

lemma present_faultCode : Present (faultCode k write a) ↔ Valid k a := by
  have hvalid : Valid k a ↔ (translate 1 k.mem k.ctx.pgd a).isSome = true :=
    isvalid_iff.trans Option.isSome_iff_exists.symm
  rw [hvalid, faultCode]
  by_cases hthere : (translate 1 k.mem k.ctx.pgd a).isSome = true
  · rw [if_pos hthere]
    cases write <;> simp only [hthere] <;> decide
  · rw [if_neg hthere]
    cases write <;> simp only [hthere] <;> decide

/-- The error code of a page that is not there. -/
lemma faultCode_absent (h : ¬Valid k a) :
    faultCode k write a &&& 1 = 0 ∧ (faultCode k write a &&& 2 = 0 ↔ write = false) := by
  have hnone : (translate 1 k.mem k.ctx.pgd a).isSome = false := by
    rw [not_valid_iff] at h
    exact Option.not_isSome_iff_eq_none.mpr h |> Bool.eq_false_iff.mpr
  rw [faultCode, hnone]
  cases write <;> decide

namespace Sees

variable (h : Sees A m k)
include h

lemma guarded (ha : Canonical a) (hin : Holds (k.ctx.mms s) a) (hv : Valid k a) :
    k.WriteAlong (path a) ↔ MayWrite (k.ctx.mms s).accessFlags := by
  by_cases hs : s = .code
  · subst hs
    exact (h.code a ha hin hv).1
  · exact h.sound.guarded s hs a ha hin hv

lemma segment (hin : Holds (k.ctx.mms s) a) : m.segment a = some s := by
  have honly : ∀ t, Holds (m.mms t) a ↔ t = s := by
    intro t
    rw [h.mms]
    refine ⟨fun ht => h.sound.layout.apart t s a ht hin, ?_⟩
    rintro rfl
    exact hin
  simp only [Flat.segment, honly]
  cases s <;> rfl

/-- A page that is there may be read, and stored to where its segment may be written. -/
lemma hit (ha : Canonical a) (hin : Holds (k.ctx.mms s) a) (hv : Valid k a) :
    (translate (needed write) k.mem k.ctx.pgd a).isSome ↔
      ¬(write = true ∧ ¬MayWrite (k.ctx.mms s).accessFlags) := by
  obtain ⟨page, hpage⟩ := isvalid_iff.mp hv
  have hread := translate_open_iff.mpr ⟨hpage, h.opened a ha hv⟩
  cases write with
  | false =>
    have htr : translate (needed false) k.mem k.ctx.pgd a = some page := hread
    rw [htr]
    simp
  | true =>
    rw [← h.guarded ha hin hv, Option.isSome_iff_exists, needed, if_pos rfl]
    simp only [translate_writable_iff, hread]
    simp

/-- The branch of the fault handler for a page that is not there. -/
lemma accepting_iff (hv : ¬Valid k a) : accepting k.ctx a (faultCode k write a) = some s ↔
    Holds (k.ctx.mms s) a ∧ m.grows write a s = true := by
  obtain ⟨hone, htwo⟩ : faultCode k write a &&& 1 = 0 ∧ _ := faultCode_absent hv
  have hapart : ∀ t, Holds (k.ctx.mms t) a → Holds (k.ctx.mms s) a → t = s := fun t ht hs =>
    h.sound.layout.apart t s a ht hs
  simp only [accepting, hone, htwo, and_true]
  constructor
  · intro hacc
    split_ifs at hacc with hdata hrodata hstack
    · cases hacc
      exact ⟨⟨hdata.1, Or.inr hdata.2⟩, by simp [Flat.grows, h.mms, hdata.2]⟩
    · cases hacc
      exact ⟨⟨hrodata.1, Or.inr hrodata.2.1⟩,
        by simp [Flat.grows, h.mms, hrodata.2.1, hrodata.2.2]⟩
    · cases hacc
      exact ⟨⟨hstack.1, Or.inl hstack.2⟩, by simp [Flat.grows, h.mms, hstack.2]⟩
  · rintro ⟨hin, hgrows⟩
    have hdata : s ≠ .data → ¬((k.ctx.mms .data).start ≤ a ∧ a < (k.ctx.mms .data).nextFree) :=
      fun hne hd => hne (hapart .data ⟨hd.1, Or.inr hd.2⟩ hin).symm
    have hrodata : s ≠ .rodata → ¬((k.ctx.mms .rodata).start ≤ a ∧
        a < (k.ctx.mms .rodata).nextFree ∧ write = false) :=
      fun hne hr => hne (hapart .rodata ⟨hr.1, Or.inr hr.2.1⟩ hin).symm
    cases s with
    | data =>
      have hend : a < (k.ctx.mms .data).nextFree := by simpa [Flat.grows, h.mms] using hgrows
      rw [if_pos ⟨hin.1, hend⟩]
    | rodata =>
      have hend : a < (k.ctx.mms .rodata).nextFree ∧ write = false := by
        simpa [Flat.grows, h.mms] using hgrows
      rw [if_neg (hdata (by decide)), if_pos ⟨hin.1, hend.1, hend.2⟩]
    | stack =>
      have hend : a < (k.ctx.mms .stack).limit := by simpa [Flat.grows, h.mms] using hgrows
      rw [if_neg (hdata (by decide)), if_neg (hrodata (by decide)), if_pos ⟨hin.1, hend⟩]
    | code => cases hgrows

end Sees

end Facts

section Changes

variable {m m' : Flat} {page : Frame} {byte : BitVec 8} {w n flag : Word}

lemma setNextFree_mms {t : MmSeg} : (k.setNextFree s w).ctx.mms t =
    if t = s then { k.ctx.mms s with nextFree := w } else k.ctx.mms t :=
  Function.update_apply _ _ _ _

lemma requested_ne_code : requested flag ≠ .code := by
  unfold requested
  split_ifs <;> nofun

lemma free1_mem {f : Frame} (hf : ¬Table k f) :
    (free1 A address k.ctx.pgd k).mem f = k.mem f := by
  cases hpage : k.lookup (path address) with
  | none => rw [free1_absent hpage]
  | some page =>
    obtain ⟨g, hg⟩ : ∃ g, k.lookup (tables address) = some g :=
      exists_follow_of_isPrefix (List.prefix_append _ [shift address 12]) hpage
    have hpres : Present (k.mem g (shift address 12)) := by
      by_contra hnot
      rw [path_eq, lookup_snoc hg, tree_of_not_present hnot] at hpage
      cases hpage
    rw [free1_present hg hpres]
    apply store_mem_frame
    rintro rfl
    exact hf ⟨_, by simp [tables], hg⟩

/-- The loop of SHRINK writes tables only. -/
lemma freePages_mem (hA : Lawful A) (hk : TableOk A k) (curr : Word) (n : ℕ) (f : Frame)
    (hf : ¬Table k f) : (freePages A curr k.ctx.pgd n k).mem f = k.mem f ∧
      ¬Table (freePages A curr k.ctx.pgd n k) f := by
  induction n with
  | zero => exact ⟨rfl, hf⟩
  | succ n ih =>
    have hfreed := freePages_spec hA hk curr n
    rw [freePages_succ]
    generalize freePages A curr k.ctx.pgd n k = m at ih hfreed ⊢
    rw [← hfreed.ctx]
    have hr := free1_spec (curr - 4096 * (BitVec.ofNat 64 n + 1)) hA hfreed.ok
    refine ⟨(free1_mem ih.2).trans ih.1, fun ⟨q, hq, hqf⟩ => ih.2 ⟨q, hq, ?_⟩⟩
    rw [← hqf, hr.others q hq.le]
    rintro rfl
    simp [path] at hq

/-- A page whose way through the table keeps its words. -/
lemma kept_of_words (hctx : k'.ctx = k.ctx) (hpage : k.lookup (path a) = some page)
    (hwords : ∀ p g j, p ++ [j] <+: path a → k.lookup p = some g → k'.mem g j = k.mem g j) :
    PageKept k k' a ∧ k'.lookup (path a) = some page ∧
      (OpenAlong k (path a) → OpenAlong k' (path a)) := by
  have hfollow : ∀ p, p <+: path a → k'.lookup p = k.lookup p := by
    intro p hp
    rw [Kernel.lookup, hctx]
    exact follow_congr_along (fun p f i hp hf => tree_congr (hwords p f i hp hf)) hp
  have hpre : tables a <+: path a := List.prefix_append _ [shift a 12]
  refine ⟨pageKept_of_marks hpage hctx (fun p f hp hf => (hfollow p hp).trans hf)
    (fun p f i hp hf hw => by rwa [hwords p f i hp hf])
    fun g hg => hwords _ g _ (List.prefix_refl _) hg, (hfollow _ (List.prefix_refl _)).trans hpage,
    fun ho => ?_⟩
  rw [OpenAlong, hctx]
  refine ho.mono (fun p f hp hf => ?_) (fun p f i hp hf hopen => ?_) hpage
  · have hsame := (hfollow p hp).trans hf
    rwa [Kernel.lookup, hctx] at hsame
  · rwa [hwords p f i hp hf]

namespace Sees

/-- Pages that are kept are seen as before. -/
lemma of_kept (h : Sees A m k) (hmms : m'.mms = k'.ctx.mms) (hs : Sound A k' ∧ LeafGuarded k')
    (hcode : k'.ctx.mms .code = k.ctx.mms .code)
    (hlow : ∀ s, (k'.ctx.mms s).limit.toNat < 2 ^ 47 ∧ (k'.ctx.mms s).nextFree.toNat < 2 ^ 47)
    (hkept : ∀ a, Canonical a → Valid k' a → PageKept k k' a ∧
      (OpenAlong k (path a) → OpenAlong k' (path a)) ∧
      ∀ s, Holds (k.ctx.mms s) a → Holds (k'.ctx.mms s) a)
    (happeared : ∀ a, Canonical a → (m'.appeared (pageOf a) = true ↔ Valid k' a))
    (hbytes : ∀ a, Canonical a → Valid k' a → kernelLoad k' a = some (m'.bytes a)) :
    Sees A m' k' := by
  refine ⟨hmms, hs.1, hs.2, hlow, fun a ha hin hv => ?_, fun a ha hv => ?_, fun a ha hv => ?_,
    happeared, hbytes⟩
  · rw [hcode] at hin ⊢
    obtain ⟨hpage, -, -⟩ := hkept a ha hv
    obtain ⟨hguard, hleaf⟩ := h.code a ha hin hpage.valid
    exact ⟨hpage.guarded hguard hleaf, hpage.leaf.trans hleaf⟩
  · obtain ⟨hpage, hopen, -⟩ := hkept a ha hv
    exact hopen (h.opened a ha hpage.valid)
  · obtain ⟨hpage, -, hin⟩ := hkept a ha hv
    exact (h.placed a ha hpage.valid).imp hin

/-- A byte stored on a page that is there. -/
lemma store (h : Sees A m k) (ha : Canonical a)
    (htr : translate 7 k.mem k.ctx.pgd a = some page) :
    Sees A (m.store a byte) (userStore a byte k) := by
  obtain ⟨hctx, hframes, hmem⟩ := userStore_spec a byte h.sound.table
  have hself : userStore a byte k = k.store page (shift a 3)
      (setByte (k.mem page (shift a 3)) (a &&& 7).toNat byte) := by
    simp only [userStore, htr]
  have hpage : k.lookup (path a) = some page := lookup_of_translate (by decide) htr
  have hlookup : ∀ b, (userStore a byte k).lookup (path b) = k.lookup (path b) := fun b =>
    lookup_congr hctx hmem (by simp [path])
  have hvalid : ∀ b, Valid (userStore a byte k) b ↔ Valid k b := by
    intro b
    rw [Valid, Valid, isvalid_iff, isvalid_iff, hlookup]
  refine h.of_kept (h.mms.trans (by rw [hctx])) (store_sound h.sound h.leaf) (by rw [hctx])
    (by rw [hctx]; exact h.low) (fun b hb hv => ?_)
    (fun b hb => (h.appeared b hb).trans (hvalid b).symm) fun b hb hv => ?_
  · obtain ⟨f, hf⟩ := isvalid_iff.mp ((hvalid b).mp hv)
    obtain ⟨hkept, -, hopen⟩ := kept_of_words hctx hf fun p g j hp hg => by
      rw [hmem p g (prefix_length_lt hp) hg]
    exact ⟨hkept, hopen, fun s hin => by rwa [hctx]⟩
  · obtain ⟨f, hf⟩ := isvalid_iff.mp ((hvalid b).mp hv)
    have hold := h.bytes b hb ((hvalid b).mp hv)
    rw [kernelLoad_eq hb hf, Option.some.injEq] at hold
    rw [kernelLoad_eq hb ((hlookup b).trans hf), hself, Option.some.injEq, byteIn_store, hold]
    simp only [Flat.store, Function.update_apply]
    refine if_congr ⟨?_, ?_⟩ rfl rfl
    · rintro ⟨rfl, hword, hbyte⟩
      have hpath := h.sound.table.tree _ _ f (by simp [path]) (by simp [path]) hf hpage
      exact eq_of_sameByte ((path_iff hb ha).mp hpath) hword hbyte
    · rintro rfl
      rw [hpage, Option.some.injEq] at hf
      exact ⟨hf.symm, rfl, rfl⟩

/-- The page of a fault, which holds whatever its frame held. -/
lemma enter (hA : Lawful A) (hzero : ∀ page j, ¬Present (A.fill .osPt page j)) (h : Sees A m k)
    (ha : Canonical a) (hacc : accepting k.ctx a (faultCode k write a) = some s)
    (hmap : mapPage A s a k = some k') :
    Sees A (m.appear (fun b => (kernelLoad k' b).getD 0) a) k' := by
  have hnone := lookup_of_accepting hacc
  have hnot := not_valid_iff.mpr hnone
  obtain ⟨hin, hgrows⟩ := (h.accepting_iff hnot).mp hacc
  obtain ⟨page, fs, -, hone⟩ := onePage_of_mapPage hA hzero h.sound.table hnone hmap
  have hm := mapPage_spec hA hzero h.sound.table hnone hmap
  have hg := mapPage_grown hA hzero h.sound.table hnone hmap
  have hfault : handlePageFault A a (faultCode k write a) k = some k' := by
    rw [handlePageFault_eq, pageFault, hacc]
    simp [hmap, Ending.returned]
  have hs := fault_sound hA h.sound h.leaf hzero ha present_faultCode hfault
  have hself : Valid k' a := isvalid_iff.mpr ⟨page, (translate_open_iff.mp hone.found).1⟩
  have hsame : ∀ b, Canonical b → pageOf b = pageOf a → Valid k' b := by
    intro b hb hpage
    rw [Valid, isvalid_iff, (path_iff hb ha).mpr hpage]
    exact isvalid_iff.mp hself
  have hother : ∀ b, Canonical b → pageOf b ≠ pageOf a →
      k'.lookup (path b) = k.lookup (path b) := fun b hb hpage =>
    hone.others _ rfl fun hpath => hpage ((path_iff hb ha).mp hpath)
  have hvalid : ∀ b, Canonical b → pageOf b ≠ pageOf a → (Valid k' b ↔ Valid k b) := by
    intro b hb hpage
    rw [Valid, Valid, isvalid_iff, isvalid_iff, hother b hb hpage]
  refine ⟨h.mms.trans (by rw [hone.ctx]), hs.1, hs.2, by rw [hone.ctx]; exact h.low,
    fun b hb hcode hv => ?_, fun b hb hv => ?_, fun b hb hv => ?_, fun b hb => ?_,
    fun b hb hv => ?_⟩ <;> by_cases hpage : pageOf b = pageOf a
  · -- the page of the fault lies in no code segment
    have hcode' : Holds (k.ctx.mms .code) a := by
      rw [hone.ctx] at hcode
      exact (holds_of_samePage (h.sound.layout.start _) (h.sound.layout.limit _)
        (h.sound.layout.nextFree _) hpage).mp hcode
    rw [h.sound.layout.apart s .code a hin hcode'] at hgrows
    cases hgrows
  · rw [hone.ctx] at hcode ⊢
    have hpath : path b ≠ path a := fun heq => hpage ((path_iff hb ha).mp heq)
    have hkept := mapped_pageKept hm hpath hv
    obtain ⟨hguard, hleaf⟩ := h.code b hb hcode hkept.valid
    exact ⟨hkept.guarded hguard hleaf, hkept.leaf.trans hleaf⟩
  · rw [(path_iff hb ha).mpr hpage]
    exact (translate_open_iff.mp hone.found).2
  · have hold := (hvalid b hb hpage).mp hv
    obtain ⟨f, hf⟩ := isvalid_iff.mp hold
    exact hone.openAlong (by simp [path]) hf (h.opened b hb hold)
  · rw [hone.ctx]
    exact ⟨s, (holds_of_samePage (h.sound.layout.start _) (h.sound.layout.limit _)
      (h.sound.layout.nextFree _) hpage).mpr hin⟩
  · rw [hone.ctx]
    exact h.placed b hb ((hvalid b hb hpage).mp hv)
  · simp [Flat.appear, hpage, hsame b hb hpage]
  · simp [Flat.appear, hpage, hvalid b hb hpage, h.appeared b hb]
  · obtain ⟨f, hf⟩ := isvalid_iff.mp hv
    simp [Flat.appear, hpage, kernelLoad_eq hb hf]
  · have hold := (hvalid b hb hpage).mp hv
    obtain ⟨f, hf⟩ := isvalid_iff.mp hold
    have hbyte := h.bytes b hb hold
    -- the frame of another page keeps its words
    have hmem : k'.mem f = k.mem f := by
      apply hg.mem f (h.sound.table.allocated f ⟨_, by simp [path], hf⟩)
      rintro ⟨q, hq, hqf⟩
      exact lookup_ne_page h.sound.table hf hq hqf rfl
    have hsamebyte : byteIn k'.mem f b = byteIn k.mem f b := by rw [byteIn, byteIn, hmem]
    rw [kernelLoad_eq hb hf] at hbyte
    rw [kernelLoad_eq hb ((hother b hb hpage).trans hf), hsamebyte]
    simpa [Flat.appear, hpage] using hbyte

lemma expand (h : Sees A m k)
    (hn : (k.ctx.mms (requested flag)).nextFree.toNat + 4096 * n.toNat < 2 ^ 64) :
    Sees A (m.expand n flag).1 (sysExpand n flag k).1 ∧
      (sysExpand n flag k).2.getD 0 = (m.expand n flag).2 := by
  have hs : Sound A (sysExpand n flag k).1 ∧ LeafGuarded (sysExpand n flag k).1 :=
    expand_sound h.sound h.leaf hn
  have hpages := pages_toNat (n := n) (by omega)
  have hsum : ((k.ctx.mms (requested flag)).nextFree + n * 4096).toNat =
      (k.ctx.mms (requested flag)).nextFree.toNat + 4096 * n.toNat := by
    rw [BitVec.toNat_add, hpages, Nat.mod_eq_of_lt hn]
  have hlimit : (k.ctx.mms (requested flag)).limit <
      (k.ctx.mms (requested flag)).nextFree + n * 4096 ↔ (k.ctx.mms (requested flag)).limit.toNat <
        (k.ctx.mms (requested flag)).nextFree.toNat + 4096 * n.toNat := by
    rw [BitVec.lt_def, hsum]
  simp only [Flat.expand, h.mms, sysExpand, hlimit] at hs ⊢
  split_ifs at hs ⊢ with hfull
  · exact ⟨h, rfl⟩
  · refine ⟨h.of_kept ?_ hs ?_ (fun t => ?_)
      (fun b hb hv => ⟨⟨hv, id, Iff.rfl⟩, id, fun t hin => ?_⟩) h.appeared h.bytes, rfl⟩
    · simp only [Flat.resize, h.mms, Kernel.setNextFree]
    · rw [setNextFree_mms, if_neg requested_ne_code.symm]
    · rw [setNextFree_mms]
      split_ifs with ht
      · subst ht
        exact ⟨(h.low _).1, by have := (h.low (requested flag)).1; simp only; omega⟩
      · exact h.low t
    · rw [setNextFree_mms]
      split_ifs with ht
      · subst ht
        refine ⟨hin.1, hin.2.imp_right fun hend => ?_⟩
        rw [BitVec.lt_def] at hend ⊢
        simp only
        omega
      · exact hin

/-- The pages that SHRINK takes out are gone, the others stay. -/
lemma shrink (hA : Lawful A) (h : Sees A m k)
    (hn : 4096 * n.toNat ≤ (k.ctx.mms (requested flag)).nextFree.toNat) :
    Sees A (m.shrink n flag).1 (sysShrink A n flag k).1 ∧
      (sysShrink A n flag k).2.getD 0 = (m.shrink n flag).2 := by
  have hs := shrink_sound hA h.sound h.leaf hn
  have hcurr := (h.low (requested flag)).2
  have halign := h.sound.layout.nextFree (requested flag)
  have hdiff : ((k.ctx.mms (requested flag)).nextFree - n * 4096).toNat =
      (k.ctx.mms (requested flag)).nextFree.toNat - 4096 * n.toNat := by bv_omega
  have hstart : (k.ctx.mms (requested flag)).nextFree - n * 4096 <
      (k.ctx.mms (requested flag)).start ↔ (k.ctx.mms (requested flag)).nextFree.toNat <
        (k.ctx.mms (requested flag)).start.toNat + 4096 * n.toNat := by
    rw [BitVec.lt_def, hdiff]
    omega
  have hc := freePages_cleared (A := A) (m := n.toNat) h.sound.table.tree hcurr hn
  have hmem := freePages_mem hA h.sound.table (k.ctx.mms (requested flag)).nextFree n.toNat
  have hbelow := fun b hb => mem_pathsBelow hcurr halign hn (a := b) hb
  simp only [Flat.shrink, h.mms, sysShrink, hstart] at hs ⊢
  split_ifs at hs ⊢ with hfull
  · exact ⟨h, rfl⟩
  generalize hend : (k.ctx.mms (requested flag)).nextFree = curr at *
  generalize freePages A curr k.ctx.pgd n.toNat k = k₁ at hc hmem hs ⊢
  rw [hc.ctx, hend] at hs ⊢
  have hvalid : ∀ b, Canonical b → (Valid k₁ b ↔ Valid k b ∧ ¬GivenBack curr n b) := by
    intro b hb
    rw [← hbelow b hb, Valid, Valid, isvalid_iff, isvalid_iff]
    constructor
    · rintro ⟨f, hf⟩
      refine ⟨⟨f, hc.kept (by simp [path]) hf⟩, fun hin => ?_⟩
      rw [hc.gone _ hin] at hf
      cases hf
    · rintro ⟨⟨f, hf⟩, hout⟩
      exact ⟨f, (hc.others _ (by simp [path]) hout).trans hf⟩
  have hkept : ∀ b, Canonical b → Valid k₁ b → ∃ f, k.lookup (path b) = some f ∧
      PageKept k k₁ b ∧ k₁.lookup (path b) = some f ∧
      (OpenAlong k (path b) → OpenAlong k₁ (path b)) := by
    intro b hb hv
    obtain ⟨hold, hout⟩ := (hvalid b hb).mp hv
    obtain ⟨f, hf⟩ := isvalid_iff.mp hold
    refine ⟨f, hf, kept_of_words hc.ctx hf fun p g j hp hg => ?_⟩
    apply hc.words p g j (prefix_length_lt hp) hg
    intro hin
    -- a last entry on the way to `b` is the last one of `b` itself
    rw [hp.eq_of_length (hc.full _ hin)] at hin
    exact hout ((hbelow b hb).mp hin)
  refine ⟨h.of_kept ?_ hs ?_ (fun t => ?_) (fun b hb hv => ?_) (fun b hb => ?_)
    (fun b hb hv => ?_), rfl⟩
  · simp only [Flat.resize, h.mms, Kernel.setNextFree, hc.ctx]
  · rw [setNextFree_mms, if_neg requested_ne_code.symm, hc.ctx]
  · rw [setNextFree_mms, hc.ctx]
    split_ifs with ht
    · subst ht
      exact ⟨(h.low _).1, by simp only; omega⟩
    · exact h.low t
  · obtain ⟨f, hf, hpage, -, hopen⟩ := hkept b hb hv
    refine ⟨⟨hpage.valid, hpage.writes, hpage.leaf⟩, hopen, fun t hin => ?_⟩
    rw [setNextFree_mms, hc.ctx]
    split_ifs with ht
    · subst ht
      have hlt := h.sound.grown _ (requested_or flag) b hb hin hpage.valid
      have hout := ((hvalid b hb).mp hv).2
      unfold GivenBack at hout
      rw [hend, BitVec.lt_def] at hlt
      refine ⟨hin.1, Or.inr ?_⟩
      rw [BitVec.lt_def]
      simp only
      omega
    · exact hin
  · have hpages : GivenBack curr n b ↔
        pageOf (curr - n * 4096) ≤ pageOf b ∧ pageOf b < pageOf curr := by
      unfold GivenBack pageOf Aligned at *
      omega
    have hnow : Valid (k₁.setNextFree (requested flag) (curr - n * 4096)) b ↔ Valid k₁ b := Iff.rfl
    rw [hnow, hvalid b hb, hpages, ← h.appeared b hb]
    simp only [Bool.and_eq_true, Bool.not_eq_true', ← Bool.not_eq_true, decide_eq_true_eq]
  · obtain ⟨f, hf, hpage, hf', -⟩ := hkept b hb hv
    have hold := h.bytes b hb hpage.valid
    have hsame : k₁.mem f = k.mem f := by
      refine (hmem f ?_).1
      rintro ⟨q, hq, hqf⟩
      exact lookup_ne_page h.sound.table hf hq hqf rfl
    have hbyte : byteIn k₁.mem f b = byteIn k.mem f b := by rw [byteIn, byteIn, hsame]
    rw [kernelLoad_eq hb hf] at hold
    have hload : kernelLoad (k₁.setNextFree (requested flag) (curr - n * 4096)) b =
        some (byteIn k₁.mem f b) := kernelLoad_eq hb hf'
    rw [hload, hbyte]
    exact hold

end Sees

end Changes

section Steps

variable {m : Flat} {p : Process α} {t : Option Flat} {param1 param2 : Word} {id : BitVec 32}
variable {fuel : ℕ} {instr : Instr}

lemma mapM_of_forall {β γ : Type} {f : β → Option γ} {g : β → γ} {xs : List β}
    (h : ∀ x ∈ xs, f x = some (g x)) : xs.mapM f = some (xs.map g) := by
  induction xs with
  | nil => rfl
  | cons x xs ih =>
    have hx := h x List.mem_cons_self
    have hxs := ih fun y hy => h y (List.mem_cons_of_mem x hy)
    simp [hx, hxs]

namespace Sees

/-- What WRITE returns and prints. -/
lemma print (h : Sees A m k) (hcanonical : param2.toNat ≤ 1024 →
      Canonical param1 ∧ Canonical (param1 + param2 - 1)) :
    (sysWrite k param1 param2).2.mapM (kernelLoad k) = some (m.print param1 param2).2 ∧
      BitVec.ofInt 64 (sysWrite k param1 param2).1 = (m.print param1 param2).1 := by
  have hrejected : BitVec.ofInt 64 (-1) = (-1 : Word) := rfl
  by_cases hlong : 1024 < param2.toNat
  · have hlong' : 1024 < param2 := hlong
    simp only [sysWrite, Flat.print, if_pos hlong, if_pos hlong']
    exact ⟨rfl, hrejected⟩
  have hlong' : ¬1024 < param2 := hlong
  obtain ⟨hfirst, hlast⟩ := hcanonical (not_lt.mp hlong)
  have hvalid : ∀ x, Canonical x → (isvalid k.mem x k.ctx.pgd = -1 ↔
      ¬m.appeared (pageOf x) = true) := by
    intro x hx
    rw [h.appeared x hx, Valid]
    rcases isvalid_cases k.mem x k.ctx.pgd with hz | hz <;> rw [hz] <;> decide
  by_cases hz : isvalid k.mem param1 k.ctx.pgd = -1 ∨
      isvalid k.mem (param1 + param2 - 1) k.ctx.pgd = -1
  · have hnot :
        ¬(m.appeared (pageOf param1) && m.appeared (pageOf (param1 + param2 - 1))) = true := by
      rw [hvalid _ hfirst, hvalid _ hlast] at hz
      rw [Bool.and_eq_true]
      tauto
    simp only [sysWrite, Flat.print, if_neg hlong, if_neg hlong', if_pos hz, if_neg hnot]
    exact ⟨rfl, hrejected⟩
  rw [not_or] at hz
  have hboth :
      (m.appeared (pageOf param1) && m.appeared (pageOf (param1 + param2 - 1))) = true := by
    rw [hvalid _ hfirst, hvalid _ hlast, not_not, not_not] at hz
    rw [hz.1, hz.2]
    rfl
  rw [sysWrite_reads hlong' hz.1 hz.2]
  simp only [Flat.print, if_neg hlong, if_pos hboth]
  refine ⟨?_, by rw [BitVec.ofInt_natCast, BitVec.ofNat_toNat, BitVec.setWidth_eq]⟩
  rw [mapM_of_forall (g := m.bytes), List.map_map]
  · rfl
  · intro x hx
    obtain ⟨i, hi, rfl⟩ := List.mem_map.mp hx
    obtain ⟨hx, page, hpage⟩ := WriteCall.mapped_between (not_lt.mp hlong) (List.mem_range.mp hi)
      (valid_of_ne hz.1) (valid_of_ne hz.2) hfirst hlast
    exact h.bytes _ hx (isvalid_iff.mpr ⟨page, hpage⟩)

/-- An access is allowed on both sides or on neither. -/
theorem access (hA : Lawful A) (hzero : ∀ page j, ¬Present (A.fill .osPt page j))
    (h : Sees A m k) (ha : Canonical a)
    (hframes : ∀ s, accepting k.ctx a (faultCode k write a) = some s →
      (supply A (needs k a) k.frames).isSome) :
    ∃ contents, (∃ m' k', m.access contents write a = some m' ∧
        settle A write a k = some (.iretq k') ∧ Sees A m' k' ∧
        (translate (needed write) k'.mem k'.ctx.pgd a).isSome) ∨
      (m.access contents write a = none ∧ ∃ k', settle A write a k = some (.doExit k')) := by
  by_cases hv : Valid k a
  · obtain ⟨s, hin⟩ := h.placed a ha hv
    have hseg := h.segment hin
    have hhit : (translate (needed write) k.mem k.ctx.pgd a).isSome ↔
        ¬(write = true ∧ ¬MayWrite (k.ctx.mms s).accessFlags) := h.hit ha hin hv
    have happeared := (h.appeared a ha).mpr hv
    refine ⟨fun _ => 0, ?_⟩
    by_cases hrefused : write = true ∧ ¬MayWrite (k.ctx.mms s).accessFlags
    · have htr : translate (needed write) k.mem k.ctx.pgd a = none :=
        Option.not_isSome_iff_eq_none.mp fun hsome => hhit.mp hsome hrefused
      refine Or.inr ⟨?_, k, settle_of_refused htr (accepting_of_present ?_)⟩
      · simp only [Flat.access, hseg, h.mms, Option.bind_some, if_pos hrefused]
      · exact Option.isSome_iff_exists.mpr (isvalid_iff.mp hv)
    · refine Or.inl ⟨m, k, ?_, settle_of_hit (hhit.mpr hrefused), h, hhit.mpr hrefused⟩
      simp only [Flat.access, hseg, h.mms, Option.bind_some, if_neg hrefused, if_pos happeared]
  · have htr : translate (needed write) k.mem k.ctx.pgd a = none := translate_of_not_valid hv
    have hmissing : ¬m.appeared (pageOf a) = true := fun happ => hv ((h.appeared a ha).mp happ)
    cases hacc : accepting k.ctx a (faultCode k write a) with
    | none =>
      refine ⟨fun _ => 0, Or.inr ⟨?_, k, settle_of_refused htr hacc⟩⟩
      cases hseg : m.segment a with
      | none => simp only [Flat.access, hseg, Option.bind_none]
      | some s =>
        have hin : Holds (m.mms s) a := by simpa using List.find?_some hseg
        rw [h.mms] at hin
        have hgrows : ¬m.grows write a s = true := by
          intro hgrows
          rw [(h.accepting_iff hv).mpr ⟨hin, hgrows⟩] at hacc
          cases hacc
        simp only [Flat.access, hseg, Option.bind_some, if_neg hmissing, if_neg hgrows, ite_self]
    | some s =>
      obtain ⟨hin, hgrows⟩ := (h.accepting_iff hv).mp hacc
      have hseg := h.segment hin
      obtain ⟨⟨fs, a'⟩, hfs⟩ := Option.isSome_iff_exists.mp (hframes s hacc)
      have hnone := lookup_of_accepting hacc
      obtain ⟨k', page, hmap, -, -⟩ :=
        mapPage_supplied (s := s) hA hzero h.sound.table hnone hfs
      have hfound : (translate (needed write) k'.mem k'.ctx.pgd a).isSome ↔
          ¬(write = true ∧ ¬MayWrite (k.ctx.mms s).accessFlags) :=
        translate_of_mapPage hA hzero h.sound.table hnone hmap
      have hsettle := settle_of_fault (A := A) htr hacc
      rw [hmap, Option.map_some, entered] at hsettle
      refine ⟨fun b => (kernelLoad k' b).getD 0, ?_⟩
      by_cases hrefused : write = true ∧ ¬MayWrite (k.ctx.mms s).accessFlags
      · rw [if_pos hrefused] at hsettle
        refine Or.inr ⟨?_, k', hsettle⟩
        simp only [Flat.access, hseg, h.mms, Option.bind_some, if_pos hrefused]
      · rw [if_neg hrefused] at hsettle
        refine Or.inl ⟨_, k', ?_, hsettle, h.enter hA hzero ha hacc hmap, hfound.mpr hrefused⟩
        simp only [Flat.access, hseg, h.mms, Option.bind_some, if_neg hrefused, if_neg hmissing,
          if_pos hgrows]

end Sees

variable (hA : Lawful A) (hzero : ∀ page j, ¬Present (A.fill .osPt page j))
include hA hzero

lemma flat_load (hfuel : 2 ≤ fuel) (h : Sees A m k) (hp : Served A k (.load a)) :
    ∃ contents t' p' r, execute A id fuel k (.load a) = some (p', r) ∧
      flatStep id (some m) (contents, .load a) = some (t', r) ∧ SeesProcess A t' p' := by
  obtain ⟨ha, hframes⟩ := hp
  obtain ⟨contents, ⟨m', k', hflat, hsettle, hsees, hread⟩ | ⟨hflat, k', hsettle⟩⟩ :=
    h.access hA hzero ha hframes
  · obtain ⟨page, htr⟩ := Option.isSome_iff_exists.mp hread
    have hopen : translate 5 k'.mem k'.ctx.pgd a = some page := htr
    have hpage : k'.lookup (path a) = some page := (translate_open_iff.mp hopen).1
    have hbyte := hsees.bytes a ha (isvalid_iff.mpr ⟨page, hpage⟩)
    rw [kernelLoad_eq ha hpage] at hbyte
    have huser : userLoad k' a = some (m'.bytes a) := by
      rw [userLoad, hopen, Option.map_some]
      exact hbyte
    refine ⟨contents, some m', .running k', .byte (m'.bytes a), ?_, ?_, .running hsees⟩
    · rw [execute, if_pos ha, access_settled hA hzero h.sound.table hfuel, hsettle,
        Option.bind_some, resume, huser, Option.map_some]
    · simp only [flatStep, hflat]
  · refine ⟨contents, none, .exited k', .gone, ?_, ?_, .exited k'⟩
    · rw [execute, if_pos ha, access_settled hA hzero h.sound.table hfuel, hsettle,
        Option.bind_some, resume]
    · simp only [flatStep, hflat]

lemma flat_store {byte : BitVec 8} (hfuel : 2 ≤ fuel) (h : Sees A m k)
    (hp : Served A k (.store a byte)) :
    ∃ contents t' p' r, execute A id fuel k (.store a byte) = some (p', r) ∧
      flatStep id (some m) (contents, .store a byte) = some (t', r) ∧ SeesProcess A t' p' := by
  obtain ⟨ha, hframes⟩ := hp
  obtain ⟨contents, ⟨m', k', hflat, hsettle, hsees, hwrite⟩ | ⟨hflat, k', hsettle⟩⟩ :=
    h.access hA hzero ha hframes
  · obtain ⟨page, htr⟩ := Option.isSome_iff_exists.mp hwrite
    refine ⟨contents, some (m'.store a byte), .running (userStore a byte k'), .stored, ?_, ?_,
      .running (hsees.store ha htr)⟩
    · rw [execute, if_pos ha, access_settled hA hzero h.sound.table hfuel, hsettle,
        Option.bind_some, resume]
    · simp only [flatStep, hflat]
  · refine ⟨contents, none, .exited k', .gone, ?_, ?_, .exited k'⟩
    · rw [execute, if_pos ha, access_settled hA hzero h.sound.table hfuel, hsettle,
        Option.bind_some, resume]
    · simp only [flatStep, hflat]

omit hzero in
lemma flat_syscall {n : BitVec 32} (h : Sees A m k) (hp : Served A k (.syscall n param1 param2)) :
    ∃ t' p' r, doSyscall A id n param1 param2 k = some (p', r) ∧
      (∀ contents, flatStep id (some m) (contents, .syscall n param1 param2) = some (t', r)) ∧
      SeesProcess A t' p' := by
  obtain ⟨hwrite, hexpand, hshrink⟩ := hp
  simp only [doSyscall, flatStep]
  split_ifs with h₁ h₂ h₃ h₄ h₅
  · exact ⟨none, .exited k, .gone, rfl, fun _ => rfl, .exited k⟩
  · exact ⟨some m, .running k, _, rfl, fun _ => rfl, .running h⟩
  · obtain ⟨hprinted, hvalue⟩ := h.print (hwrite h₃)
    rw [hprinted, hvalue]
    exact ⟨some m, .running k, _, rfl, fun _ => rfl, .running h⟩
  · obtain ⟨hsees, hvalue⟩ := h.expand (hexpand h₄)
    rw [hvalue]
    exact ⟨_, _, _, rfl, fun _ => rfl, .running hsees⟩
  · obtain ⟨hsees, hvalue⟩ := h.shrink hA (hshrink h₅)
    rw [hvalue]
    exact ⟨_, _, _, rfl, fun _ => rfl, .running hsees⟩
  · exact ⟨some m, .running k, _, rfl, fun _ => rfl, .running h⟩

/-- One instruction of a process is one on its flat memory. -/
theorem flat_step (hfuel : 2 ≤ fuel) (h : SeesProcess A t p) (hp : ServedProcess A p instr) :
    ∃ contents t' p' r, step A id fuel p instr = some (p', r) ∧
      flatStep id t (contents, instr) = some (t', r) ∧ SeesProcess A t' p' := by
  cases h with
  | exited k => exact ⟨fun _ => 0, none, .exited k, .gone, rfl, rfl, .exited k⟩
  | @running m k h =>
    cases instr with
    | load a => exact flat_load hA hzero hfuel h hp
    | store a byte => exact flat_store hA hzero hfuel h hp
    | divByZero => exact ⟨fun _ => 0, none, .exited k, .gone, rfl, rfl, .exited k⟩
    | syscall n param1 param2 =>
      obtain ⟨t', p', r, hcall, hflat, hsees⟩ : ∃ t' p' r,
          doSyscall A id n param1 param2 k = some (p', r) ∧ _ := flat_syscall hA h hp
      exact ⟨fun _ => 0, t', p', r, hcall, hflat _, hsees⟩

end Steps

section Runs

/-- Every run of a process is one on flat memory, with the same replies, for some contents of the
pages that appear. -/
theorem process_sees_flat_memory (A : Allocator α) (hA : Lawful A)
    (hzero : ∀ page, A.fill .osPt page = fun _ => 0) (id : BitVec 32) (fuel : ℕ)
    (hfuel : 2 ≤ fuel) (k : Kernel α) (m : Flat) (h : Sees A m k) (instrs : List Instr)
    (hserved : Along (step A id fuel) (ServedProcess A) (.running k) instrs) :
    ∃ (contents : List Contents) (p : Process α) (t : Option Flat) (rs : List Response),
      contents.length = instrs.length ∧
        Machine.run (step A id fuel) (.running k) instrs = some (p, rs) ∧
        Machine.run (flatStep id) (some m) (contents.zip instrs) = some (t, rs) ∧
        SeesProcess A t p := by
  have hempty : ∀ page j, ¬Present (A.fill .osPt page j) := by
    intro page j
    rw [hzero]
    exact not_present_zero
  refine hserved.simulate_choice (R := fun p t => SeesProcess A t p) (fun p t instr hsees hp => ?_)
    (.running h)
  obtain ⟨contents, t', p', r, hstep, hflat, hsees'⟩ := flat_step hA hempty hfuel hsees hp
  exact ⟨contents, p', t', r, hstep, hflat, hsees'⟩

/-- Memory before the first access. -/
def blank : Flat := ⟨twoPages, fun _ => false, fun _ => 0⟩

lemma blank_seen : Sees bump blank unmapped := by
  have hinvalid : ∀ a, ¬Valid unmapped a := by
    intro a hv
    obtain ⟨g, hg⟩ := isvalid_iff.mp hv
    have hnext : unmapped.tree 1 (shift a 39) = none := tree_of_not_present not_present_zero
    rw [Kernel.lookup, path, follow] at hg
    have hroot : unmapped.ctx.pgd = 1 := rfl
    rw [hroot, hnext] at hg
    cases hg
  refine ⟨rfl, unmapped_sound.1, unmapped_sound.2, fun s => ?_,
    fun a _ _ hv => absurd hv (hinvalid a), fun a _ hv => absurd hv (hinvalid a),
    fun a _ hv => absurd hv (hinvalid a), fun a _ => iff_of_false (by simp [blank]) (hinvalid a),
    fun a _ hv => absurd hv (hinvalid a)⟩
  cases s <;> decide

/-- A byte stored in the first page of DATA and written out. -/
theorem process_sees_first_page : ∃ (contents : List Contents) (t : Option Flat),
    Machine.run (flatStep 7) (some blank) (contents.zip
      [.store 0x180000000 65, .syscall syscallWrite 0x180000000 1]) =
        some (t, [.stored, .returned 1 [65]]) := by
  have hreplies : (Machine.run (step bump 7 2) (.running unmapped) [.store 0x180000000 65,
      .syscall syscallWrite 0x180000000 1]).map (fun x => x.2) =
      some [.stored, .returned 1 [65]] := by decide
  have hwrite : ∀ p, ServedProcess bump p (.syscall syscallWrite 0x180000000 1) := by
    intro p
    cases p with
    | running k => exact ⟨fun _ _ => by decide, fun h => absurd h (by decide),
        fun h => absurd h (by decide)⟩
    | exited k => trivial
  have hserved : Along (step bump 7 2) (ServedProcess bump) (.running unmapped)
      [.store 0x180000000 65, .syscall syscallWrite 0x180000000 1] :=
    ⟨⟨by decide, fun _ _ => by decide⟩, fun p _ _ => ⟨hwrite p, fun _ _ _ => trivial⟩⟩
  obtain ⟨contents, p, t, rs, -, hrun, hflat, -⟩ := process_sees_flat_memory bump bump_lawful
    (fun _ => rfl) 7 2 (by norm_num) unmapped blank blank_seen _ hserved
  rw [hrun] at hreplies
  cases hreplies
  exact ⟨contents, t, hflat⟩

end Runs

end OsAssignments.FlatMemory
