import OsAssignments.WriteCases

/-!
# The transfers that a call requests

Code that goes through the disk requests the same transfers on a disk that never fails,
up to the first one that fails on the real disk. So whether all of them succeed is settled
before the code runs, by the fault pattern and the run on the mended disk. The rules below
say so of single transfers, of code that follows other code, and of branches; the paths of
`objstore_read` and `objstore_write` are put together from them.
-/
namespace OsAssignments

/-- The block a transfer is about. -/
def blockOffset : Transfer → ℤ
  | .read p => p
  | .write p => p

/-- Transfer `t`, at place `i` of the log of a disk, fails there. -/
def Disk.Rejects (d : Disk) (i : ℕ) (t : Transfer) : Prop := blockOffset t < 0 ∨ d.fails i = true

instance (d : Disk) (i : ℕ) (t : Transfer) : Decidable (d.Rejects i t) :=
  inferInstanceAs (Decidable (_ ∨ _))

/-- The disk with the same image and log on which no transfer fails from now on. -/
def Disk.mended (d : Disk) : Disk := { d with fails := fun _ => false }

lemma Disk.refuses_iff (d : Disk) (t : Transfer) :
    d.refuses (blockOffset t) = true ↔ d.Rejects d.log.length t := by
  simp [Disk.refuses, Disk.Rejects]

/-- A state of the program with a disk in it. -/
class HasDisk (σ : Type) where
  disk : σ → Disk
  mended : σ → σ
  disk_mended : ∀ s, disk (mended s) = (disk s).mended

open HasDisk ByteMemory Bitmap ObjectTable

instance : HasDisk Disk := ⟨id, Disk.mended, fun _ => rfl⟩

instance : HasDisk Device :=
  ⟨Device.disk, fun d => { d with disk := d.disk.mended }, fun _ => rfl⟩

instance : HasDisk Store :=
  ⟨fun s => s.dev.disk, fun s => { s with dev := mended s.dev }, fun _ => rfl⟩

instance : HasDisk ReadState :=
  ⟨fun r => r.dev.disk, fun r => { r with dev := mended r.dev }, fun _ => rfl⟩

instance {σ α : Type} [HasDisk σ] : HasDisk (σ × α) :=
  ⟨fun x => disk x.1, fun x => (mended x.1, x.2), fun x => disk_mended x.1⟩

/-- The transfers of `log` that the disk `d` has not seen yet all succeed on it. -/
def Disk.Serves (d : Disk) (log : List Transfer) : Prop :=
  ∀ i t, d.log.length ≤ i → log.reverse[i]? = some t → ¬d.Rejects i t

lemma getElem_last (t : Transfer) (log : List Transfer) :
    (t :: log).reverse[log.length]? = some t := by
  rw [List.reverse_cons, List.getElem?_append_right (by rw [List.length_reverse]),
    List.length_reverse, Nat.sub_self]
  rfl

namespace Disk.Serves

variable {d d' : Disk} {log log' : List Transfer} {t : Transfer}

lemma self (d : Disk) : d.Serves d.log := by
  intro i t hi ht
  rw [List.getElem?_eq_none (by rwa [List.length_reverse])] at ht
  contradiction

/-- A log is read from its old end on. -/
lemma getElem_suffix (h : log <:+ log') {i : ℕ} (hi : i < log.length) :
    log'.reverse[i]? = log.reverse[i]? := by
  obtain ⟨new, rfl⟩ := h
  rw [List.reverse_append, List.getElem?_append_left (by rwa [List.length_reverse])]

lemma of_suffix (hd : d.Serves log') (h : log <:+ log') : d.Serves log := by
  intro i t hi ht
  have hlt := (List.getElem?_eq_some_iff.mp ht).1
  rw [List.length_reverse] at hlt
  exact hd i t hi (by rw [getElem_suffix h hlt, ht])

/-- What is left to serve after a part of the log. -/
lemma later (hd : d.Serves log) (h : d.log <:+ d'.log) (hf : d'.fails = d.fails) :
    d'.Serves log := by
  intro i t hi ht
  rw [Rejects, hf]
  exact hd i t (h.length_le.trans hi) ht

/-- A log that is served in two parts. -/
lemma append (hd : d.Serves d'.log) (hd' : d'.Serves log) (h : d'.log <:+ log)
    (hf : d'.fails = d.fails) : d.Serves log := by
  intro i t hi ht
  by_cases hlt : i < d'.log.length
  · exact hd i t hi (by rw [← getElem_suffix h hlt, ht])
  · have hreject := hd' i t (not_lt.mp hlt) ht
    rwa [Rejects, hf] at hreject

/-- One more transfer. -/
lemma cons_iff : d.Serves (t :: d.log) ↔ d.refuses (blockOffset t) = false := by
  rw [← Bool.not_eq_true, Disk.refuses_iff]
  constructor
  · intro h
    exact h _ t le_rfl (getElem_last t d.log)
  · intro h i u hi hu
    have hlt := (List.getElem?_eq_some_iff.mp hu).1
    rw [List.length_reverse, List.length_cons] at hlt
    obtain rfl : i = d.log.length := by omega
    rw [getElem_last, Option.some.injEq] at hu
    exact hu ▸ h

end Disk.Serves

/-- Code that leaves the fault pattern alone, only adds to the log, and does on the mended
disk what it does on the real one while the transfers that it requests there succeed. -/
structure Tracked {σ τ : Type} [HasDisk σ] [HasDisk τ] (op : σ → τ) : Prop where
  fails : ∀ s, (disk (op s)).fails = (disk s).fails
  grows : ∀ s, (disk s).log <:+ (disk (op s)).log
  same : ∀ s, (disk s).Serves (disk (op s)).log → op (mended s) = mended (op s)
  served : ∀ s, (disk s).Serves (disk (op (mended s))).log → (disk s).Serves (disk (op s)).log

namespace Tracked

variable {ρ ρ' σ τ υ : Type} [HasDisk ρ] [HasDisk ρ'] [HasDisk σ] [HasDisk τ] [HasDisk υ]

lemma mended_log (s : σ) : (disk (mended s)).log = (disk s).log := by
  rw [disk_mended]
  rfl

/-- The real disk serves code exactly when it serves the transfers of the mended run. -/
theorem serves_iff {op : σ → τ} (h : Tracked op) (s : σ) :
    (disk s).Serves (disk (op s)).log ↔ (disk s).Serves (disk (op (mended s))).log := by
  constructor
  · intro hs
    rwa [h.same s hs, mended_log]
  · exact h.served s

/-- Code without a transfer. -/
theorem pure {op : σ → τ} (hd : ∀ s, disk (op s) = disk s)
    (hm : ∀ s, op (mended s) = mended (op s)) : Tracked op where
  fails s := by rw [hd]
  grows s := by rw [hd]
  same s _ := hm s
  served s _ := by
    rw [hd]
    exact Disk.Serves.self _

/-- One piece of code after the other. -/
theorem comp {g : τ → υ} {f : σ → τ} (hg : Tracked g) (hf : Tracked f) :
    Tracked fun s => g (f s) where
  fails s := (hg.fails _).trans (hf.fails s)
  grows s := (hf.grows s).trans (hg.grows _)
  same s hs := by
    rw [hf.same s (hs.of_suffix (hg.grows _)), hg.same]
    exact hs.later (hf.grows s) (hf.fails s)
  served s hs := by
    have hfirst := hf.served s (hs.of_suffix (hg.grows _))
    rw [hf.same s hfirst] at hs
    exact hfirst.append (hg.served _ (hs.later (hf.grows s) (hf.fails s))) (hg.grows _)
      (hf.fails s)

/-- A test that does not look at the disk. -/
theorem ite {c : σ → Prop} [DecidablePred c] {f g : σ → τ} (hc : ∀ s, c (mended s) ↔ c s)
    (hf : Tracked f) (hg : Tracked g) : Tracked fun s => if c s then f s else g s where
  fails s := by
    split_ifs
    exacts [hf.fails s, hg.fails s]
  grows s := by
    split_ifs
    exacts [hf.grows s, hg.grows s]
  same s := by
    simp only [hc]
    split_ifs
    exacts [hf.same s, hg.same s]
  served s := by
    simp only [hc]
    split_ifs
    exacts [hf.served s, hg.served s]

/-- Code for a part of the state, with its result put back. -/
theorem within {op : ρ → σ → τ} (part : ρ → σ) (put : ρ → τ → ρ') (h : ∀ r, Tracked (op r))
    (hop : ∀ r, op (mended r) = op r) (hpart : ∀ r, disk (part r) = disk r)
    (hmended : ∀ r, part (mended r) = mended (part r)) (hput : ∀ r t, disk (put r t) = disk t)
    (hback : ∀ r t, put (mended r) (mended t) = mended (put r t)) :
    Tracked fun r => put r (op r (part r)) where
  fails r := by rw [hput, (h r).fails, hpart]
  grows r := by
    rw [hput, ← hpart]
    exact (h r).grows _
  same r hr := by
    rw [hput, ← hpart] at hr
    rw [hop, hmended, (h r).same _ hr, hback]
  served r hr := by
    rw [hput, hop, hmended, ← hpart] at hr
    rw [hput, ← hpart]
    exact (h r).served _ hr

/-- Code that depends on a value found before. -/
theorem uncurry {α : Type} {op : α → σ → τ} (h : ∀ a, Tracked (op a)) :
    Tracked fun x : σ × α => op x.2 x.1 where
  fails x := (h x.2).fails x.1
  grows x := (h x.2).grows x.1
  same x := (h x.2).same x.1
  served x := (h x.2).served x.1

end Tracked

section Transfers

lemma mended_refuses {d : Disk} {p : ℤ} (h : d.refuses p = false) : d.mended.refuses p = false := by
  rw [Disk.refuses, Bool.or_eq_false_iff] at h ⊢
  exact ⟨h.1, rfl⟩

/-- One transfer, with what it hands back. -/
theorem transfer_tracked {α : Type} {op : Disk → Disk × α} (t : Transfer)
    (hfails : ∀ d, (op d).1.fails = d.fails) (hlog : ∀ d, (op d).1.log = t :: d.log)
    (hsame : ∀ d, d.refuses (blockOffset t) = false →
      op d.mended = ((op d).1.mended, (op d).2)) : Tracked op where
  fails := hfails
  grows d := ⟨[t], (hlog d).symm⟩
  same d hd := by
    have hserved : d.Serves (op d).1.log := hd
    rw [hlog] at hserved
    exact hsame d (Disk.Serves.cons_iff.mp hserved)
  served d hd := by
    have hserved : d.Serves (op d.mended).1.log := hd
    rw [hlog] at hserved
    show d.Serves (op d).1.log
    rw [hlog]
    exact hserved

theorem readBlock_tracked (p : ℤ) (buf : Block) : Tracked fun d : Disk => readBlock d p buf := by
  refine transfer_tracked (.read p) (fun d => readBlock_fails d p buf)
    (fun d => readBlock_log d p buf) fun d hserved => ?_
  have hserved' : d.refuses p = false := hserved
  rw [readBlock, if_neg (by simp [mended_refuses hserved']), readBlock,
    if_neg (by simp [hserved'])]
  rfl

theorem writeBlock_tracked (p : ℤ) (buf : Block) : Tracked fun d : Disk => writeBlock d p buf := by
  refine transfer_tracked (.write p) (fun d => writeBlock_fails d p buf)
    (fun d => writeBlock_log d p buf) fun d hserved => ?_
  have hserved' : d.refuses p = false := hserved
  rw [writeBlock, if_neg (by simp [mended_refuses hserved']), writeBlock,
    if_neg (by simp [hserved'])]
  rfl

end Transfers

section Blocks

open BlockCache

variable (build : Build) (b : ℤ) (buf : Block)

theorem writeBack_tracked (o : ℤ) : Tracked fun d : Device => writeBack d o :=
  Tracked.ite (fun _ => Iff.rfl)
    (Tracked.within Device.disk (fun d r => { d with disk := r.1 })
      (fun d : Device => writeBlock_tracked
        (writeOffset + d.cacheArray o * cacheBlocks + o) (d.cache o)) (fun _ => rfl)
      (fun _ => rfl) (fun _ => rfl) (fun _ _ => rfl) fun _ _ => rfl)
    (Tracked.pure (fun _ => rfl) fun _ => rfl)

theorem writeCached_tracked : Tracked fun d : Device => writeCached d b buf :=
  Tracked.comp (g := fun d : Device => { d with
      cache := Function.update d.cache (b.tmod cacheBlocks) buf
      cacheArray := Function.update d.cacheArray (b.tmod cacheBlocks) (b.tdiv cacheBlocks)
      dirtyCache := Function.update d.dirtyCache (b.tmod cacheBlocks) true })
    (Tracked.pure (fun _ => rfl) fun _ => rfl) (writeBack_tracked _)

/-- The fill of a slot, once its old block is out of the way. -/
theorem fill_tracked (o : ℤ) : Tracked fun d : Device =>
    let r := readBlock d.disk (writeOffset + b) (d.cache o)
    (({ d with
      disk := r.1
      cache := Function.update d.cache o r.2.1
      cacheArray := Function.update d.cacheArray o (b.tdiv cacheBlocks)
      dirtyCache := Function.update d.dirtyCache o false } : Device), r.2.1) :=
  Tracked.within Device.disk
    (fun d r => (({ d with
      disk := r.1
      cache := Function.update d.cache o r.2.1
      cacheArray := Function.update d.cacheArray o (b.tdiv cacheBlocks)
      dirtyCache := Function.update d.dirtyCache o false } : Device), r.2.1))
    (fun d : Device => readBlock_tracked (writeOffset + b) (d.cache o)) (fun _ => rfl)
    (fun _ => rfl) (fun _ => rfl) (fun _ _ => rfl) fun _ _ => rfl

theorem readCached_tracked : Tracked fun d : Device => readCached d b :=
  Tracked.ite (fun _ => Iff.rfl) ((fill_tracked b _).comp (writeBack_tracked _))
    (Tracked.pure (fun _ => rfl) fun _ => rfl)

theorem loadBlock_tracked : Tracked fun d : Device => loadBlock build d b := by
  cases build with
  | objfs =>
    exact Tracked.within Device.disk (fun d r => ({ d with disk := r.1 }, r.2.1))
      (fun _ : Device => readBlock_tracked (writeOffset + b) fun _ => 0) (fun _ => rfl)
      (fun _ => rfl) (fun _ => rfl) (fun _ _ => rfl) fun _ _ => rfl
  | objfsCached => exact readCached_tracked b

theorem storeBlock_tracked : Tracked fun d : Device => storeBlock build d b buf := by
  cases build with
  | objfs =>
    exact Tracked.within Device.disk (fun d r => { d with disk := r.1 })
      (fun _ : Device => writeBlock_tracked (writeOffset + b) buf) (fun _ => rfl)
      (fun _ => rfl) (fun _ => rfl) (fun _ _ => rfl) fun _ _ => rfl
  | objfsCached => exact writeCached_tracked b buf

end Blocks

section Reads

variable (build : Build)

/-- A block is fetched, and kept beside the local variables. -/
theorem load_tracked (b : ℤ) :
    Tracked fun r : ReadState =>
      (({ r with dev := (loadBlock build r.dev b).1 } : ReadState), (loadBlock build r.dev b).2) :=
  Tracked.within ReadState.dev
    (fun r l => (({ r with dev := l.1 } : ReadState), l.2))
    (fun _ : ReadState => loadBlock_tracked build b) (fun _ => rfl) (fun _ => rfl) (fun _ => rfl)
    (fun _ _ => rfl) fun _ _ => rfl

theorem readPointer_tracked (ptr : ℤ) : Tracked fun r : ReadState => readPointer build ptr r :=
  Tracked.ite (fun _ => Iff.rfl) (Tracked.pure (fun _ => rfl) fun _ => rfl)
    (Tracked.within ReadState.dev
      (fun r l => ({ r with
        dev := l.1
        totalBlocks := r.totalBlocks - 1
        iterator := r.iterator + 1
        readArray := Function.update r.readArray r.iterator l.2 } : ReadState))
      (fun _ : ReadState => loadBlock_tracked build (ptr - writeOffset)) (fun _ => rfl)
      (fun _ => rfl) (fun _ => rfl) (fun _ _ => rfl) fun _ _ => rfl)

theorem readPointers_tracked (ptr : ℕ → ℤ) (k i : ℕ) :
    Tracked fun r : ReadState => readPointers build ptr k i r := by
  induction k generalizing i with
  | zero => exact Tracked.pure (fun _ => rfl) fun _ => rfl
  | succ k ih =>
    exact Tracked.ite (fun _ => Iff.rfl) ((ih (i + 1)).comp (readPointer_tracked build (ptr i)))
      (Tracked.pure (fun _ => rfl) fun _ => rfl)

theorem readIndirects_tracked (ind : ℕ → ℤ) (k j : ℕ) :
    Tracked fun r : ReadState => readIndirects build ind k j r := by
  induction k generalizing j with
  | zero => exact Tracked.pure (fun _ => rfl) fun _ => rfl
  | succ k ih =>
    have hentries : Tracked fun x : ReadState × Block =>
        readPointers build (entry x.2) 1024 0 x.1 :=
      Tracked.uncurry fun block => readPointers_tracked build (entry block) 1024 0
    have hstep := (ih (j + 1)).comp (hentries.comp (load_tracked build (ind j - writeOffset)))
    simp only [readIndirects]
    exact Tracked.ite (fun _ => Iff.rfl) hstep (Tracked.pure (fun _ => rfl) fun _ => rfl)

/-- The store after both loops of `objstore_read`. -/
def readEnd (n size offset : ℕ) (s : Store) : Store :=
  let r := readPointers build (direct s.objs n) 4 0
    ⟨s.dev, offset / blockSize, totalBlocks size, 0, fun _ _ => 0⟩
  { s with dev := (readIndirects build (indirect s.objs n) 4 0 r).dev }

theorem readEnd_tracked (n size offset : ℕ) : Tracked (readEnd build n size offset) :=
  Tracked.within (fun s : Store =>
      (⟨s.dev, offset / blockSize, totalBlocks size, 0, fun _ _ => 0⟩ : ReadState))
    (fun s r => { s with dev := r.dev })
    (fun s : Store => (readIndirects_tracked build (indirect s.objs n) 4 0).comp
      (readPointers_tracked build (direct s.objs n) 4 0)) (fun _ => rfl)
    (fun _ => rfl) (fun _ => rfl) (fun _ _ => rfl) fun _ _ => rfl

end Reads

section Writes

variable (build : Build) (n k z b : ℕ)

/-- Code that only looks at and changes the other globals. -/
theorem globals_tracked {f : Store → Store} (hd : ∀ s, (f s).dev = s.dev)
    (hm : ∀ s dev, f { s with dev := dev } = { f s with dev := dev }) : Tracked f :=
  Tracked.pure (fun s => congrArg Device.disk (hd s)) fun s => by
    have hmended : mended (f s) = { f s with dev := mended s.dev } := by rw [← hd s]; rfl
    rw [hmended, ← hm]
    rfl

theorem placed_tracked (page : Block) : Tracked fun s : Store => placed build s n b page :=
  Tracked.within Store.dev
    (fun s dev =>
      { s.markDirty n with bitMapData := setBit s.bitMapData b, dev := dev })
    (fun _ : Store => storeBlock_tracked build b page) (fun _ => rfl) (fun _ => rfl)
    (fun _ => rfl) (fun _ _ => rfl) fun _ _ => rfl

theorem writeDirect_tracked : Tracked fun s : Store => writeDirect s n k z b :=
  Tracked.ite (fun _ => Iff.rfl) (globals_tracked (fun _ => rfl) fun _ _ => by dsimp only)
    (globals_tracked (fun _ => rfl) fun _ _ => by dsimp only)

/-- The block that `objstore_write` takes for a new table; without a free one it is -1. -/
def tableBlock (s : Store) : ℤ := (searchFree s).elim (-1) fun f => (f.i * 32 + f.j : ℕ)

lemma writeNewIndirect_dev (s : Store) (l e : ℕ) : writeNewIndirect build s n l e z b =
    { writeNewIndirect build s n l e z b with
      dev := storeBlock build s.dev (tableBlock s)
        (setEntry (fun _ => 0) e (writeOffset + b)) } := by
  unfold writeNewIndirect tableBlock
  cases searchFree s <;> rfl

theorem writeNewIndirect_tracked (l e : ℕ) :
    Tracked fun s : Store => writeNewIndirect build s n l e z b := by
  have hstore : Tracked fun s : Store =>
      { writeNewIndirect build s n l e z b with
        dev := storeBlock build s.dev (tableBlock s)
          (setEntry (fun _ => 0) e (writeOffset + b)) } :=
    Tracked.within Store.dev (fun s dev => { writeNewIndirect build s n l e z b with dev := dev })
      (fun s : Store => storeBlock_tracked build (tableBlock s)
        (setEntry (fun _ => 0) e (writeOffset + b))) (fun _ => rfl)
      (fun _ => rfl) (fun _ => rfl) (fun _ _ => rfl) fun _ _ => rfl
  have heq : (fun s => writeNewIndirect build s n l e z b) = _ :=
    funext fun s => writeNewIndirect_dev build n z b s l e
  rwa [heq]

theorem writeOldIndirect_tracked (l e : ℕ) :
    Tracked fun s : Store => writeOldIndirect build s n l e z b := by
  have hload : Tracked fun s : Store =>
      (({ s with dev := (loadBlock build s.dev (indirect s.objs n l - writeOffset)).1 } : Store),
        (loadBlock build s.dev (indirect s.objs n l - writeOffset)).2) :=
    Tracked.within Store.dev (fun s r => (({ s with dev := r.1 } : Store), r.2))
      (fun s : Store => loadBlock_tracked build (indirect s.objs n l - writeOffset)) (fun _ => rfl)
      (fun _ => rfl) (fun _ => rfl) (fun _ _ => rfl) fun _ _ => rfl
  have hstore : Tracked fun x : Store × Block =>
      (({ x.1 with
          dev := storeBlock build x.1.dev (indirect x.1.objs n l - writeOffset)
            (setEntry x.2 e (writeOffset + b)) } : Store), x.2) :=
    Tracked.within (fun x : Store × Block => x.1.dev)
      (fun x dev => (({ x.1 with dev := dev } : Store), x.2))
      (fun x : Store × Block => storeBlock_tracked build (indirect x.1.objs n l - writeOffset)
        (setEntry x.2 e (writeOffset + b))) (fun _ => rfl)
      (fun _ => rfl) (fun _ => rfl) (fun _ _ => rfl) fun _ _ => rfl
  have hbranch (block : Block) : Tracked fun s : Store =>
      if entry block e = 0 then { s with objs := setSize s.objs n (objSize s.objs n + z) }
      else { s with bitMapData := toggleBit s.bitMapData (entry block e) } :=
    Tracked.ite (fun _ => Iff.rfl) (globals_tracked (fun _ => rfl) fun _ _ => by dsimp only)
      (globals_tracked (fun _ => rfl) fun _ _ => by dsimp only)
  have hall := (Tracked.uncurry hbranch).comp (hstore.comp hload)
  simp only [writeOldIndirect]
  exact hall

theorem written_tracked (page : Block) : Tracked fun s : Store => written build s n k z b page := by
  have hindirect : Tracked fun s : Store => writeIndirect build s n k z b :=
    Tracked.ite (fun _ => Iff.rfl) (writeNewIndirect_tracked build n z b _ _)
      (writeOldIndirect_tracked build n z b _ _)
  exact Tracked.ite (c := fun _ => k < 4) (fun _ => Iff.rfl)
    ((writeDirect_tracked n k z b).comp (placed_tracked build n b page))
    (hindirect.comp (placed_tracked build n b page))

end Writes

end OsAssignments
