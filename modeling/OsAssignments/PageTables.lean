import OsAssignments.Paging

/-!
# The page table as a tree

What the walks of the fault handler and of SHRINK do to the tree of frames behind
the top table, one specification for each walk.
-/
namespace OsAssignments.Paging

open RadixTree

section Words

variable {w code : Word} {flags : BitVec 32} {frame : Frame}

/-- The write bit of an entry. -/
def Writable (w : Word) : Prop := w &&& 2 ≠ 0

instance : DecidablePred Writable := fun w => inferInstanceAs (Decidable (w &&& 2 ≠ 0))

/-- A mask of one bit tests that bit. -/
lemma mask_ne_zero {n : ℕ} (hn : n < 64) :
    w &&& BitVec.twoPow 64 n ≠ 0 ↔ w.toNat / 2 ^ n % 2 = 1 := by
  have hbit : w.getLsbD n = decide (w.toNat / 2 ^ n % 2 = 1) :=
    Nat.testBit_eq_decide_div_mod_eq
  have hne : BitVec.twoPow 64 n ≠ 0 := by
    intro hzero
    have hself := congrArg (fun v => v.getLsbD n) hzero
    simp [hn] at hself
  rw [BitVec.and_twoPow, hbit]
  by_cases h : w.toNat / 2 ^ n % 2 = 1
  · simpa only [h, decide_true, if_true, iff_true] using hne
  · simp [h]

lemma present_toNat : Present w ↔ w.toNat % 2 = 1 := by
  rw [← Nat.div_one w.toNat]
  exact mask_ne_zero (n := 0) (by norm_num)

lemma writable_toNat : Writable w ↔ w.toNat / 2 % 2 = 1 := mask_ne_zero (n := 1) (by norm_num)

lemma present_or : Present (w ||| code) ↔ Present w ∨ Present code := by
  simp only [Present, ne_eq, BitVec.and_or_distrib_right, BitVec.ofNat_eq_ofNat,
    BitVec.or_eq_zero_iff, not_and_or]

lemma writable_or : Writable (w ||| code) ↔ Writable w ∨ Writable code := by
  simp only [Writable, ne_eq, BitVec.and_or_distrib_right, BitVec.ofNat_eq_ofNat,
    BitVec.or_eq_zero_iff, not_and_or]

lemma not_present_zero : ¬Present 0 := by decide

/-- An entry is present when it has the one bit needed for that. -/
lemma present_iff : Present w ↔ w &&& 1 = 1 := by
  have hand : (w &&& 1).toNat = w.toNat % 2 := by
    rw [BitVec.toNat_and]
    exact Nat.and_one_is_mod _
  rw [present_toNat, ← hand, ← BitVec.toNat_inj]
  rfl

lemma shift_toNat (n : ℕ) : (shift w n).toNat = w.toNat / 2 ^ n % 512 := by
  have hmask : (511 : Word).toNat = 2 ^ 9 - 1 := rfl
  rw [shift, BitVec.toNat_setWidth, BitVec.toNat_and, hmask, Nat.and_two_pow_sub_one_eq_mod,
    BitVec.toNat_ushiftRight, Nat.shiftRight_eq_div_pow]
  exact Nat.mod_mod _ _

/-- Whether a segment may be written. -/
def MayWrite (flags : BitVec 32) : Prop := flags &&& mmWr ≠ 0

lemma accessCode_cases (flags : BitVec 32) :
    MayWrite flags ∧ accessCode flags = 7 ∨ ¬MayWrite flags ∧ accessCode flags = 5 := by
  have htwo : (2 : BitVec 32) = BitVec.twoPow 32 1 := rfl
  have hand : flags &&& 2 = 2 ∨ flags &&& 2 = 0 := by
    rw [htwo, BitVec.and_twoPow]
    split_ifs
    · exact Or.inl rfl
    · exact Or.inr rfl
  rw [MayWrite, mmWr, accessCode]
  rcases hand with h | h <;> rw [h] <;> decide

lemma accessCode_lt : (accessCode flags).toNat < 4096 := by
  rcases accessCode_cases flags with ⟨-, h⟩ | ⟨-, h⟩ <;> rw [h] <;> decide

lemma present_accessCode : Present (accessCode flags) := by
  rcases accessCode_cases flags with ⟨-, h⟩ | ⟨-, h⟩ <;> rw [h] <;> decide

lemma writable_accessCode : Writable (accessCode flags) ↔ MayWrite flags := by
  rcases accessCode_cases flags with ⟨hw, h⟩ | ⟨hw, h⟩ <;> simp only [h, hw] <;> decide

/-- The access bits lie below the frame number. -/
lemma pfn_or (hcode : code.toNat < 4096) : pfn (w ||| code) = pfn w := by
  have hlow : code >>> 12 = 0#64 := by
    rw [← BitVec.toNat_inj, BitVec.toNat_ushiftRight, Nat.shiftRight_eq_div_pow]
    exact Nat.div_eq_of_lt hcode
  rw [pfn, pfn, BitVec.ushiftRight_or_distrib, hlow, BitVec.or_zero]

lemma entryFor_toNat (hcode : code.toNat < 4096) :
    (entryFor code frame).toNat = code.toNat + 4096 * (frame.toNat % 2 ^ 20) := by
  have hshift : (frame <<< 12).toNat = 4096 * (frame.toNat % 2 ^ 20) := by
    rw [BitVec.toNat_shiftLeft, Nat.shiftLeft_eq]
    omega
  rw [entryFor, BitVec.toNat_add, BitVec.toNat_setWidth, hshift]
  omega

lemma pfn_entryFor_toNat (hcode : code.toNat < 4096) :
    (pfn (entryFor code frame)).toNat = frame.toNat % 2 ^ 20 := by
  rw [pfn, BitVec.toNat_setWidth, BitVec.toNat_ushiftRight, Nat.shiftRight_eq_div_pow,
    entryFor_toNat hcode]
  omega

lemma pfn_entryFor (hcode : code.toNat < 4096) (hframe : frame.toNat < 2 ^ 20) :
    pfn (entryFor code frame) = frame := by
  rw [← BitVec.toNat_inj, pfn_entryFor_toNat hcode, Nat.mod_eq_of_lt hframe]

lemma present_entryFor (hcode : code.toNat < 4096) :
    Present (entryFor code frame) ↔ Present code := by
  rw [present_toNat, present_toNat, entryFor_toNat hcode]
  omega

lemma writable_entryFor (hcode : code.toNat < 4096) :
    Writable (entryFor code frame) ↔ Writable code := by
  rw [writable_toNat, writable_toNat, entryFor_toNat hcode]
  omega

end Words

section Trees

variable {α : Type} {A : Allocator α} {k k' : Kernel α} {p q : List Index} {i j : Index}
variable {frame f g : Frame} {code : Word} {region : Region} {a' : α}

/-- The tables and pages behind the entries that are present. -/
def Kernel.tree (k : Kernel α) : Frame → Index → Option Frame := links 1 k.mem

/-- The table or page that a list of indices leads to from the top table. -/
def Kernel.lookup (k : Kernel α) (p : List Index) : Option Frame := follow k.tree k.ctx.pgd p

/-- What `os_pfn_alloc` and `os_pfn_free` are relied on for. -/
structure Lawful (A : Allocator α) : Prop where
  fresh : ∀ {region a f a'}, A.alloc region a = some (f, a') → ¬A.allocated a f
  below : ∀ {region a f a'}, A.alloc region a = some (f, a') → f.toNat < 2 ^ 20
  mark : ∀ {region a f a'}, A.alloc region a = some (f, a') →
    ∀ g, A.allocated a' g ↔ g = f ∨ A.allocated a g
  unmark : ∀ {region a f}, A.allocated a f →
    ∀ g, A.allocated (A.free region f a) g ↔ A.allocated a g ∧ g ≠ f

/-- The page table is a tree, and its tables and pages are allocated. -/
structure TableOk (A : Allocator α) (k : Kernel α) : Prop where
  tree : IsTree k.tree k.ctx.pgd 4
  allocated : ∀ f, Reached k.tree k.ctx.pgd 4 f → A.allocated k.frames f

/-- An access in user mode follows no entry that is not present. -/
lemma links_of_not_present {mem : Memory} {need : Word} (hneed : need &&& 1 = 1)
    (h : ¬Present (mem f i)) : links need mem f i = none := by
  refine if_neg fun hbits => h (present_iff.mpr ?_)
  rw [← hneed, ← hbits, BitVec.and_assoc, ← BitVec.and_assoc, BitVec.and_self]

lemma tree_of_present (h : Present (k.mem f i)) : k.tree f i = some (pfn (k.mem f i)) :=
  if_pos (present_iff.mp h)

lemma tree_of_not_present (h : ¬Present (k.mem f i)) : k.tree f i = none :=
  if_neg fun hand => h (present_iff.mpr hand)

lemma tree_eq_none : k.tree f i = none ↔ ¬Present (k.mem f i) := by
  refine ⟨fun h hpres => ?_, tree_of_not_present⟩
  rw [tree_of_present hpres] at h
  cases h

lemma tree_congr (h : k'.mem f i = k.mem f i) : k'.tree f i = k.tree f i := by
  rw [Kernel.tree, Kernel.tree, links, links, h]

lemma store_mem_self {w : Word} : (k.store f i w).mem f i = w := by
  simp only [Kernel.store, Function.update_self]

lemma store_mem_ne {w : Word} (h : ¬(g = f ∧ j = i)) : (k.store f i w).mem g j = k.mem g j := by
  by_cases hg : g = f
  · subst hg
    simp only [Kernel.store, Function.update_self, Function.update_of_ne fun hj => h ⟨rfl, hj⟩]
  · simp only [Kernel.store, Function.update_of_ne hg]

lemma store_mem_frame {w : Word} (h : g ≠ f) : (k.store f i w).mem g = k.mem g :=
  Function.update_of_ne h _ _

lemma receive_mem_ne (h : g ≠ f) : (k.receive A region f a').mem g = k.mem g :=
  Function.update_of_ne h _ _

/-- A kernel whose tables below the top one lead where they led. -/
lemma TableOk.of_redirected {o : Option Frame} (h : TableOk A k) (hctx : k'.ctx = k.ctx)
    (hr : Redirected k.tree k'.tree k.ctx.pgd 4 p o)
    (hfresh : ∀ g, o = some g → ¬A.allocated k.frames g)
    (hframes : ∀ g, Reached k'.tree k.ctx.pgd 4 g → Reached k.tree k.ctx.pgd 4 g ∨ o = some g →
      A.allocated k'.frames g) : TableOk A k' := by
  rw [← hctx] at hr
  have htree : IsTree k'.tree k'.ctx.pgd 4 := hr.isTree (hctx ▸ h.tree) fun g hg hreached =>
    hfresh g hg (h.allocated g (hctx ▸ hreached))
  refine ⟨htree, fun g hg => hframes g (hctx ▸ hg) ?_⟩
  rw [← hctx]
  exact hr.reached hg

/-- A frame handed out and entered in a table: behind the entry is the frame, and nothing
behind it. -/
def Kernel.give (A : Allocator α) (k : Kernel α) (region : Region) (f : Frame) (a' : α)
    (code : Word) (frame : Frame) (i : Index) : Kernel α :=
  (k.receive A region f a').store frame i (entryFor code f)

lemma give_mem (hg : g ≠ f) (hne : ¬(g = frame ∧ j = i)) :
    (k.give A region f a' code frame i).mem g j = k.mem g j := by
  rw [Kernel.give, store_mem_ne hne, receive_mem_ne hg]

lemma give_mem_entry : (k.give A region f a' code frame i).mem frame i = entryFor code f :=
  store_mem_self

section Give

variable (hA : Lawful A) (hk : TableOk A k) (halloc : A.alloc region k.frames = some (f, a'))
include hA hk halloc

lemma lookup_ne_fresh (hq : q.length ≤ 4) (hg : k.lookup q = some g) : g ≠ f := by
  rintro rfl
  exact hA.fresh halloc (hk.allocated g ⟨q, hq, hg⟩)

variable (hp : k.lookup p = some frame) (hn : p.length < 4)
include hp hn

lemma give_mem_fresh : (k.give A region f a' code frame i).mem f = A.fill region (k.mem f) := by
  have hne : f ≠ frame := (lookup_ne_fresh hA hk halloc hn.le hp).symm
  funext j
  rw [Kernel.give, store_mem_ne fun h => hne h.1]
  simp only [Kernel.receive, Function.update_self]

variable (hcode : code.toNat < 4096) (hpres : Present code)
  (hlast : p.length + 1 = 4 ∨
    ¬Present (k.mem frame i) ∧ ∀ j, ¬Present (A.fill region (k.mem f) j))
include hcode hpres hlast

theorem give_redirected :
    Redirected k.tree (k.give A region f a' code frame i).tree k.ctx.pgd 4 (p ++ [i]) (some f) := by
  have honly : OnlyEntry k.tree (k.give A region f a' code frame i).tree k.ctx.pgd 4 frame i :=
    fun q g j hq hg hne => tree_congr (give_mem (lookup_ne_fresh hA hk halloc hq.le hg) hne)
  have hbelow := hA.below halloc
  have hentry : (k.give A region f a' code frame i).tree frame i = some f := by
    have hpresent : Present ((k.give A region f a' code frame i).mem frame i) := by
      rw [give_mem_entry]
      exact (present_entryFor hcode).mpr hpres
    rw [tree_of_present hpresent, give_mem_entry, pfn_entryFor hcode hbelow]
  rw [← hentry]
  refine honly.redirected hk.tree hp hn (hlast.imp id fun ⟨hempty, hbare⟩ => ?_)
  refine ⟨tree_of_not_present hempty, fun g hg j => tree_of_not_present ?_⟩
  rw [hentry, Option.some.injEq] at hg
  rw [← hg, give_mem_fresh hA hk halloc hp hn]
  exact hbare j

theorem give_ok : TableOk A (k.give A region f a' code frame i) := by
  have hr := give_redirected hA hk halloc hp hn hcode hpres hlast
  refine hk.of_redirected rfl hr (fun g hg => ?_) fun g _ hg => ?_
  · rw [← Option.some.inj hg]
    exact hA.fresh halloc
  · refine (hA.mark halloc g).mpr (hg.symm.imp (fun h => (Option.some.inj h).symm) fun h => ?_)
    exact hk.allocated g h

end Give

/-- Access bits added to an entry that is present change no translation. -/
lemma raise_tree (hcode : code.toNat < 4096) (hpres : Present (k.mem frame i)) :
    (k.store frame i (k.mem frame i ||| code)).tree = k.tree := by
  funext g j
  by_cases hg : g = frame ∧ j = i
  · obtain ⟨rfl, rfl⟩ := hg
    have hpres' : Present ((k.store g j (k.mem g j ||| code)).mem g j) := by
      rw [store_mem_self]
      exact present_or.mpr (Or.inl hpres)
    rw [tree_of_present hpres', tree_of_present hpres, store_mem_self, pfn_or hcode]
  · exact tree_congr (store_mem_ne hg)

lemma raise_lookup (hcode : code.toNat < 4096) (hpres : Present (k.mem frame i)) :
    (k.store frame i (k.mem frame i ||| code)).lookup q = k.lookup q := by
  rw [Kernel.lookup, raise_tree hcode hpres]
  rfl

lemma raise_ok (hk : TableOk A k) (hcode : code.toNat < 4096) (hpres : Present (k.mem frame i)) :
    TableOk A (k.store frame i (k.mem frame i ||| code)) := by
  have htree := raise_tree hcode hpres
  refine ⟨?_, fun g hg => ?_⟩
  · rw [htree]
    exact hk.tree
  · rw [htree] at hg
    exact hk.allocated g hg

lemma descend_present (hpres : Present (k.mem frame i)) : descend A code i frame k =
    some (pfn (k.mem frame i), k.store frame i (k.mem frame i ||| code)) := by
  have hpres' : Present ((k.store frame i (k.mem frame i ||| code)).mem frame i) := by
    rw [store_mem_self]
    exact present_or.mpr (Or.inl hpres)
  simp only [descend, if_pos hpres, Option.map_some, if_pos hpres']

lemma descend_absent (hA : Lawful A) (hk : TableOk A k) (hp : k.lookup p = some frame)
    (hn : p.length < 4) (hempty : ¬Present (k.mem frame i)) : descend A code i frame k =
      (A.alloc .osPt k.frames).map fun (f, a') => (f, k.give A .osPt f a' code frame i) := by
  simp only [descend, if_neg hempty, osPfnAlloc, Option.map_map]
  cases halloc : A.alloc .osPt k.frames with
  | none => rfl
  | some x =>
    obtain ⟨f, a'⟩ := x
    have hne := lookup_ne_fresh hA hk halloc hn.le hp
    have hempty' : ¬Present ((k.receive A .osPt f a').mem frame i) := by rwa [receive_mem_ne hne]
    simp only [Option.map_some, Function.comp_apply, if_neg hempty', Kernel.give]

end Trees

end OsAssignments.Paging
