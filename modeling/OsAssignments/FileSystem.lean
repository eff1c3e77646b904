import OsAssignments.LastWrite
import OsAssignments.Names

/-!
# The file system

The callbacks of `objfs.c` hand the calls of FUSE on to the object store and turn its
-1 into an error number. Seen through them the store is a set of named files, each
with a size and the pages that were written.
-/
namespace OsAssignments.FileSystem

open ByteMemory Bitmap ObjectTable Builds
open LastWrite (ones firstWritten firstWritten_live firstWritten_spec)
open Machine (Along)

variable {build : Build} {s s' : Store} {n m k size offset : ℕ} {name name' : CString}

section Callbacks

/-- A path: behind its slash stands the name of an object, and nothing for the root. -/
structure Path where
  name : CString
  deriving DecidableEq

/-- `!strcmp(key, "/")`. -/
def Path.IsRoot (key : Path) : Prop := key.name.bytes = []

instance (key : Path) : Decidable key.IsRoot := inferInstanceAs (Decidable (_ = _))

def enoent : ℤ := 2
def ebadf : ℤ := 9
def eexist : ℤ := 17
def einval : ℤ := 22

/-- `ROOT_OBJID`. -/
def rootObjid : ℤ := 1

/-- The members of `struct stat` that are set for an object; without `details` the size and the
block count are the default ones. -/
structure Stat where
  ino : ℤ
  details : Option (ℤ × ℤ)
  deriving DecidableEq

/-- What a callback hands back: its return value, and what it stores for the caller. -/
structure Result where
  ret : ℤ
  stat : Option Stat := none
  fh : Option ℤ := none
  bytes : List UInt8 := []
  deriving DecidableEq

/-- The callbacks of `objfs_operations` for files. -/
inductive Callback where
  | getattr (key : Path)
  | create (key : Path)
  | unlink (key : Path)
  | rename (oldkey newkey : Path)
  | openFile (key : Path)
  | read (fh : ℤ) (size offset : ℕ)
  | write (fh : ℤ) (buf : Memory) (size offset : ℕ)
  | release (fh : ℤ)

def objfsGetattr (s : Store) (key : Path) : Store × Result :=
  if key.IsRoot then (s, { ret := 0, stat := some ⟨rootObjid, none⟩ })
  else
    let found := findObjectId s key.name
    if found.2 < 0 then (found.1, { ret := -enoent })
    else match fillupSizeDetails found.1 found.2.toNat with
      | none => (found.1, { ret := -ebadf })
      | some details => (found.1, { ret := 0, stat := some ⟨found.2, some details⟩ })

def objfsCreate (s : Store) (key : Path) : Option (Store × Result) :=
  (createObject s key.name).map fun r =>
    (r.1, if r.2 < 0 then { ret := -eexist } else { ret := 0, fh := some r.2 })

/-- The return value of `destroy_object` is not looked at. -/
def objfsUnlink (build : Build) (s : Store) (key : Path) : Option (Store × Result) :=
  (destroyObject build s key.name).map fun r => (r.1, { ret := 0 })

def objfsRenameKey (s : Store) (oldkey newkey : Path) : Option (Store × Result) :=
  (renameObject s oldkey.name newkey.name).map fun r =>
    (r.1, { ret := if r.2 < (0 : ℤ) then -einval else 0 })

def objfsOpen (s : Store) (key : Path) : Store × Result :=
  let found := findObjectId s key.name
  (found.1, if found.2 < 0 then { ret := -enoent } else { ret := 0, fh := some found.2 })

def objfsRead (build : Build) (s : Store) (fh : ℤ) (size offset : ℕ) :
    Option (Store × Result) :=
  (objstoreRead build s fh size offset).map fun r =>
    (r.1, if r.2.1 < 0 then { ret := -einval } else { ret := r.2.1, bytes := r.2.2 })

def objfsWrite (build : Build) (s : Store) (fh : ℤ) (buf : Memory) (size offset : ℕ) :
    Option (Store × Result) :=
  (objstoreWrite build s fh buf size offset).map fun r =>
    (r.1, { ret := if r.2 < (0 : ℤ) then -einval else r.2 })

/-- `release_object` does nothing. -/
def objfsRelease (s : Store) (_fh : ℤ) : Store × Result := (s, { ret := -einval })

def callback (build : Build) (s : Store) : Callback → Option (Store × Result)
  | .getattr key => some (objfsGetattr s key)
  | .create key => objfsCreate s key
  | .unlink key => objfsUnlink build s key
  | .rename oldkey newkey => objfsRenameKey s oldkey newkey
  | .openFile key => some (objfsOpen s key)
  | .read fh size offset => objfsRead build s fh size offset
  | .write fh buf size offset => objfsWrite build s fh buf size offset
  | .release fh => some (objfsRelease s fh)

end Callbacks

section Files

/-- A file: how many bytes were written, and the pages they are on. -/
structure File where
  size : ℕ
  page : ℕ → Option Block

/-- Byte `x` of a file. -/
def File.byte (f : File) (x : ℕ) : UInt8 :=
  ((f.page (x / blockSize)).getD fun _ => 0) (Fin.ofNat blockSize x)

/-- One more page, with the bytes of the caller at its start. -/
def File.fill (f : File) (buf : Memory) (size k : ℕ) : File where
  size := f.size + size
  page := Function.update f.page k (some (bufferPage buf size))

/-- What the file system is for: names of open numbers, and the files behind the numbers. -/
structure Files where
  number : CString → Option ℕ
  file : ℕ → Option File

namespace Files

def create (fs : Files) (name : CString) (n : ℕ) : Files where
  number := Function.update fs.number name (some n)
  file := Function.update fs.file n (some ⟨0, fun _ => none⟩)

def remove (fs : Files) (name : CString) (n : ℕ) : Files where
  number := Function.update fs.number name none
  file := Function.update fs.file n none

def rename (fs : Files) (name name' : CString) (n : ℕ) : Files where
  number := Function.update (Function.update fs.number name none) name' (some n)
  file := fs.file

def write (fs : Files) (n : ℕ) (f : File) (buf : Memory) (size k : ℕ) : Files where
  number := fs.number
  file := Function.update fs.file n (some (f.fill buf size k))

end Files

/-- The attributes of the file with number `n`. -/
def File.stat (f : File) (n : ℕ) : Stat :=
  ⟨(n + 2 : ℕ), some ((f.size : ℤ), ((f.size + 511) / 512 : ℕ))⟩

/-- One callback on files. A new file gets any number that is not in use; it is chosen with the
callback. -/
def onFiles (fs : Files) : ℕ × Callback → Option (Files × Result)
  | (_, .getattr key) =>
    if key.IsRoot then some (fs, { ret := 0, stat := some ⟨rootObjid, none⟩ })
    else match fs.number key.name with
      | none => some (fs, { ret := -enoent })
      | some n => (fs.file n).map fun f => (fs, { ret := 0, stat := some (f.stat n) })
  | (n, .create key) =>
    if (fs.file n).isSome then none
    else some (fs.create key.name n, { ret := 0, fh := some (n + 2 : ℕ) })
  | (_, .unlink key) => match fs.number key.name with
    | none => some (fs, { ret := 0 })
    | some n => some (fs.remove key.name n, { ret := 0 })
  | (_, .rename oldkey newkey) => match fs.number oldkey.name with
    | none => some (fs, { ret := -einval })
    | some n => some (fs.rename oldkey.name newkey.name n, { ret := 0 })
  | (_, .openFile key) => match fs.number key.name with
    | none => some (fs, { ret := -enoent })
    | some n => some (fs, { ret := 0, fh := some (n + 2 : ℕ) })
  | (_, .read fh size offset) =>
    if fh < 2 then some (fs, { ret := -einval })
    else (fs.file (fh - 2).toNat).map fun f =>
      (fs, { ret := size, bytes := (List.range size).map fun i => f.byte (offset + i) })
  | (_, .write fh buf size offset) =>
    if fh < 2 then some (fs, { ret := -einval })
    else (fs.file (fh - 2).toNat).map fun f =>
      (fs.write (fh - 2).toNat f buf size (offset / blockSize), { ret := size })
  | (_, .release _) => some (fs, { ret := -einval })

end Files

section Rooted

/-- Every indirect block has an entry in use. -/
def Rooted (v : Ref → ℤ) : Prop :=
  ∀ (n : ℕ) (l : Fin 4), v (.pointer n ⟨4 + l, by omega⟩) ≠ 0 → ∃ e, v (.entry n l e) ≠ 0

lemma Rooted.of_eq {v v' : Ref → ℤ} (h : Rooted v) (hv : v' = v) : Rooted v' := by
  rw [hv]
  exact h

/-- A block for data roots no more indirect blocks. -/
lemma Rooted.data {v : Ref → ℤ} {r : Ref} {x : ℤ} (h : Rooted v) (hr : r.IsData) (hx : x ≠ 0) :
    Rooted (Function.update v r x) := by
  intro n l hp
  have hne : Ref.pointer n ⟨4 + l, by omega⟩ ≠ r := by
    rintro rfl
    have hlt : 4 + (l : ℕ) < 4 := hr
    omega
  rw [Function.update_of_ne hne] at hp
  obtain ⟨e, he⟩ := h n l hp
  refine ⟨e, ?_⟩
  rw [Function.update_apply]
  split_ifs
  · exact hx
  · exact he

/-- An indirect block that comes with its first entry. -/
lemma Rooted.table {v : Ref → ℤ} {l : Fin 4} {e : Fin 1024} {x y : ℤ} (h : Rooted v) (hy : y ≠ 0) :
    Rooted (Function.update (Function.update v (.pointer n ⟨4 + l, by omega⟩) x) (.entry n l e)
      y) := by
  intro m j hp
  by_cases hsame : Ref.entry m j = Ref.entry n l
  · refine ⟨e, ?_⟩
    rw [hsame, Function.update_self]
    exact hy
  · have hne : Ref.pointer m ⟨4 + j, by omega⟩ ≠ .pointer n ⟨4 + l, by omega⟩ := by
      intro heq
      rw [Ref.pointer.injEq, Fin.mk.injEq] at heq
      have hj : j = l := Fin.ext (by omega)
      exact hsame (by rw [heq.1, hj])
    rw [Function.update_of_ne (by simp), Function.update_of_ne hne] at hp
    obtain ⟨i, hi⟩ := h m j hp
    refine ⟨i, ?_⟩
    have hentry : Ref.entry m j i ≠ .entry n l e := by
      intro heq
      rw [Ref.entry.injEq] at heq
      exact hsame (by rw [heq.1, heq.2.1])
    rwa [Function.update_of_ne hentry, Function.update_of_ne (by simp)]

/-- A write to a page that was not there roots the indirect block it takes. -/
lemma rooted_hung {b t : ℕ} (size : ℕ) (page : Block) (h : Rooted (value build s))
    (hok : StoreOk build True s) (hk : k < 4100) (hp : Picks s n k b t) :
    Rooted (value build (hung build s n k size b t page)) := by
  have hl : (k - 4) / 1024 < 4 := by omega
  have he : (k - 4) % 1024 < 1024 := Nat.mod_lt _ (by norm_num)
  unfold hung
  split_ifs with hdirect hz
  · rw [hungDirect_value hok hp.data.1 hp.data.clear hdirect]
    exact h.data hdirect (position_ne_zero b)
  · have ht := hp.table ⟨hdirect, hz⟩
    rw [hungTable_value hok hp.data.1 hp.data.clear hl he hz ht.1 ht.clear]
    exact h.table (l := ⟨_, hl⟩) (position_ne_zero b)
  · rw [hungEntry_value hok hp.data.1 hp.data.clear hl he hz]
    exact h.data trivial (position_ne_zero b)

lemma rooted_emptied (h : Rooted (value build s)) (he : Emptied build s s' n) :
    Rooted (value build s') := by
  intro m l hp
  by_cases hmn : m = n
  · rw [he.values, if_pos (show (Ref.pointer m _).slot = n from hmn)] at hp
    exact absurd rfl hp
  · rw [he.values, if_neg (show ¬(Ref.pointer m _).slot = n from hmn)] at hp
    obtain ⟨e, hne⟩ := h m l hp
    exact ⟨e, by rwa [he.values, if_neg (show ¬(Ref.entry m l e).slot = n from hmn)]⟩

end Rooted

section View

/-- Slot `n` stores the file `f`. -/
structure Stores (build : Build) (s : Store) (n : ℕ) (f : File) : Prop where
  size : objSize s.objs n = f.size
  holes : ∀ k < 4100, f.page k = none ↔ value build s (.ofBlock n k) = 0
  pages : ∀ k < 4100, ∀ b, f.page k = some b → blockOf build s n k = b
  bound : f.size ≤ blockSize * ((Finset.range 4100).filter fun k => (f.page k).isSome).card

/-- The store holds these files and no others. -/
structure Holds (build : Build) (s : Store) (fs : Files) : Prop where
  names : NamesOk build s
  lock : s.lockData = false
  slots : ∀ n, s.live n = true → InObjs n
  rooted : Rooted (value build s)
  number : ∀ name, Fits name → ∀ n, fs.number name = some n ↔ s.named name n = true
  file : ∀ n, (fs.file n).isSome ↔ s.live n = true
  stores : ∀ n f, fs.file n = some f → Stores build s n f

/-- What the callers guarantee: names that fit their field, new names that are not in use, whole
pages that are written once, reads of pages that were written with no table skipped
before them; and there is room for what is new. -/
def Served (build : Build) (s : Store) : Callback → Prop
  | .getattr key | .unlink key | .openFile key => Fits key.name
  | .create key => Fits key.name ∧ (∀ n, s.named key.name n = false) ∧
      ∃ n, InObjs n ∧ s.live n = false
  | .rename oldkey newkey => Fits oldkey.name ∧ Fits newkey.name ∧
      ∀ n, s.named newkey.name n = false
  | .read fh size offset => fh < 2 ∨ ∃ n : ℕ, fh = n + 2 ∧ s.live n = true ∧ blockSize ∣ offset ∧
      (∀ i < totalBlocks size, offset / blockSize + i < 4100 ∧
        value build s (.ofBlock n (offset / blockSize + i)) ≠ 0) ∧
      ∀ j < 4, 4 + 1024 * j < offset / blockSize + totalBlocks size →
        ∃ k, 4 + 1024 * j ≤ k ∧ k < 4 + 1024 * (j + 1) ∧ value build s (.ofBlock n k) ≠ 0
  | .write fh _ size offset => fh < 2 ∨ ∃ n : ℕ, fh = n + 2 ∧ s.live n = true ∧
      blockSize ∣ offset ∧ size ≤ blockSize ∧ offset / blockSize < 4100 ∧
      value build s (.ofBlock n (offset / blockSize)) = 0 ∧
      writeCost s n (offset / blockSize) ≤ (freeBits s.bitMapData dataBits).card
  | .release _ => True

end View

section Searches

variable {fs : Files} {f : File}

/-- Files are kept by what leaves the values and the blocks of their slot alone. -/
lemma Stores.congr (h : Stores build s n f) (hsize : objSize s'.objs n = objSize s.objs n)
    (hval : ∀ k, value build s' (.ofBlock n k) = value build s (.ofBlock n k))
    (hview : ∀ k, value build s (.ofBlock n k) ≠ 0 →
      view build s' (value build s (.ofBlock n k) - writeOffset) =
        view build s (value build s (.ofBlock n k) - writeOffset)) : Stores build s' n f := by
  refine ⟨hsize.trans h.size, fun k hk => (h.holes k hk).trans (by rw [hval]),
    fun k hk b hb => ?_, h.bound⟩
  have hne : value build s (.ofBlock n k) ≠ 0 := by
    intro hzero
    rw [(h.holes k hk).mpr hzero] at hb
    cases hb
  rw [blockOf, hval, hview k hne]
  exact h.pages k hk b hb

/-- Searches and reads leave the files as they are. -/
lemma Holds.idle (h : Holds build s fs) {dev : Device} (temp : Option ℕ)
    (hd : SameBlocks build s.dev dev) : Holds build { s with dev := dev, temp := temp } fs := by
  have hok := hd.storeOk h.names.store
  have hval : value build { s with dev := dev, temp := temp } = value build s :=
    hd.value h.names.store
  refine ⟨h.names.of_same (hok.recall temp) (fun _ => rfl) fun _ _ _ => rfl, h.lock, h.slots,
    h.rooted.of_eq hval, h.number, h.file, fun n f hf => ?_⟩
  exact (h.stores n f hf).congr rfl (fun _ => by rw [hval]) fun k hne =>
    hd.views _ (h.names.store.valid hne)

/-- A name is found or it is not. -/
lemma Holds.find (h : Holds build s fs) (hk : Fits name) :
    fs.number name = none ∧ findObjectId s name = (s, -1) ∧ s.NoKey name ∨
      ∃ n f, fs.number name = some n ∧ fs.file n = some f ∧ s.KeyAt name n ∧
        findObjectId s name = ({ s with temp := some n }, ((n + 2 : ℕ) : ℤ)) := by
  cases hnumber : fs.number name with
  | none =>
    have hnone : ∀ n, s.named name n = false := by
      intro n
      by_contra hn
      rw [(h.number name hk n).mpr (by simpa using hn)] at hnumber
      cases hnumber
    exact Or.inl ⟨rfl, findObjectId_none fun n _ => hnone n, fun n _ => hnone n⟩
  | some n =>
    have hn := (h.number name hk n).mp hnumber
    have hat := h.names.keyAt_of hn
    obtain ⟨f, hf⟩ := Option.isSome_iff_exists.mp ((h.file n).mpr hat.live)
    have hid := h.names.store.ids n hat.live
    refine Or.inr ⟨n, f, rfl, hf, hat, ?_⟩
    rw [findObjectId_some hat, hid]
    push_cast
    rfl

/-- A callback is answered as it is on files. -/
def Answered (build : Build) (s : Store) (fs : Files) (c : Callback) : Prop :=
  ∃ n s' fs' r, callback build s c = some (s', r) ∧ onFiles fs (n, c) = some (fs', r) ∧
    Holds build s' fs'

/-- The size of a found object is there for `fillup_size_details`. -/
lemma fillup_found (h : Holds build s fs) (hf : fs.file n = some f) :
    fillupSizeDetails { s with temp := some n } (n + 2) =
      some ((f.size : ℤ), (((f.size + 511) / 512 : ℕ) : ℤ)) := by
  have hlive := (h.file n).mp (by rw [hf]; rfl)
  have hslot := inObjs_iff.mp (h.slots n hlive)
  have hid := h.names.store.ids n hlive
  have hsize := (h.stores n f hf).size
  have hmatch : ¬(n + 2 < 2 ∨ ((n : ℤ) + 2) % 2 ^ 64 ≠ ((n + 2 : ℕ) : ℤ)) := by omega
  simp only [fillupSizeDetails, hid, hsize, if_neg hmatch, Option.some.injEq, Prod.mk.injEq,
    true_and]
  split_ifs with hpart
  · omega
  · omega

theorem answered_getattr {key : Path} (h : Holds build s fs) (hk : Fits key.name) :
    Answered build s fs (.getattr key) := by
  by_cases hroot : key.IsRoot
  · refine ⟨0, s, fs, { ret := 0, stat := some ⟨rootObjid, none⟩ }, ?_, ?_, h⟩
    · rw [callback, objfsGetattr, if_pos hroot]
    · rw [onFiles, if_pos hroot]
  · obtain ⟨hnumber, hfind, -⟩ | ⟨n, f, hnumber, hf, -, hfind⟩ := h.find hk
    · refine ⟨0, s, fs, { ret := -enoent }, ?_, ?_, h⟩
      · simp only [callback, objfsGetattr, if_neg hroot, hfind]
        rfl
      · simp only [onFiles, if_neg hroot, hnumber]
    · refine ⟨0, _, fs, { ret := 0, stat := some (f.stat n) }, ?_, ?_,
        h.idle (some n) (.refl h.names.store.device)⟩
      · have hid : ¬((n + 2 : ℕ) : ℤ) < 0 := by omega
        simp only [callback, objfsGetattr, if_neg hroot, hfind, if_neg hid, Int.toNat_natCast,
          fillup_found h hf, File.stat]
      · simp only [onFiles, if_neg hroot, hnumber, hf, Option.map_some]

theorem answered_open {key : Path} (h : Holds build s fs) (hk : Fits key.name) :
    Answered build s fs (.openFile key) := by
  obtain ⟨hnumber, hfind, -⟩ | ⟨n, f, hnumber, -, -, hfind⟩ := h.find hk
  · refine ⟨0, s, fs, { ret := -enoent }, ?_, ?_, h⟩
    · simp only [callback, objfsOpen, hfind]
      rfl
    · simp only [onFiles, hnumber]
  · refine ⟨0, _, fs, { ret := 0, fh := some (n + 2 : ℕ) }, ?_, ?_,
      h.idle (some n) (.refl h.names.store.device)⟩
    · have hid : ¬((n + 2 : ℕ) : ℤ) < 0 := by omega
      simp only [callback, objfsOpen, hfind, if_neg hid]
    · simp only [onFiles, hnumber]

/-- The pages of a file, read as bytes. -/
lemma Stores.pageBytes_eq (h : Stores build s n f) {p : ℕ}
    (hmapped : ∀ i < totalBlocks size, p + i < 4100 ∧ value build s (.ofBlock n (p + i)) ≠ 0) :
    pageBytes (fun i => blockOf build s n (p + i)) size =
      (List.range size).map fun i => f.byte (blockSize * p + i) := by
  unfold pageBytes
  apply List.map_congr_left
  intro i hi
  have hin : i / 4096 < totalBlocks size := by
    rw [lt_totalBlocks]
    have hlt := List.mem_range.mp hi
    show 4096 * (i / 4096) < size
    omega
  obtain ⟨hlt, hne⟩ := hmapped (i / 4096) hin
  obtain ⟨b, hb⟩ := Option.ne_none_iff_exists'.mp fun hnone => hne ((h.holes _ hlt).mp hnone)
  have hpage := h.pages _ hlt b hb
  have hplace : (4096 * p + i) / 4096 = p + i / 4096 := by omega
  have hbyte : Fin.ofNat blockSize (blockSize * p + i) = Fin.ofNat blockSize i :=
    Fin.ext (Nat.mul_add_mod 4096 p i)
  have hblock : f.page ((blockSize * p + i) / blockSize) = some b := by
    show f.page ((4096 * p + i) / 4096) = some b
    rw [hplace, hb]
  rw [File.byte, hblock, Option.getD_some, hbyte]
  exact congrFun hpage _

/-- A table with a page behind it is there. -/
lemma readable_table (h : StoreOk build True s) {j : ℕ} (hj : j < 4) (hlo : 4 + 1024 * j ≤ k)
    (hhi : k < 4 + 1024 * (j + 1)) (hne : value build s (.ofBlock n k) ≠ 0) :
    Readable build (indirect s.objs n j - writeOffset) := by
  have hplace : (k - 4) / 1024 = j := by omega
  have hlast : 4 + 1024 * (j + 1) ≤ 4100 := by omega
  have htable := table_ne_zero (by omega) (hhi.trans_le hlast) hne
  rw [hplace] at htable
  exact Or.inl (h.indirect_valid hj htable)

/-- Pages that were written are read back. -/
theorem answered_read {fh : ℤ} (h : Holds build s fs)
    (hp : Served build s (.read fh size offset)) :
    Answered build s fs (.read fh size offset) := by
  obtain hlow | ⟨n, rfl, hlive, ⟨p, rfl⟩, hmapped, htables⟩ := hp
  · refine ⟨0, s, fs, { ret := -einval }, ?_, ?_, h⟩
    · rw [callback, objfsRead, objstoreRead, if_pos hlow]
      rfl
    · rw [onFiles, if_pos hlow]
  obtain ⟨f, hf⟩ := Option.isSome_iff_exists.mp ((h.file n).mpr hlive)
  have hst := h.stores n f hf
  have hdiv : blockSize * p / blockSize = p := Nat.mul_div_cancel_left p (by norm_num)
  rw [hdiv] at hmapped htables
  have hthere : ∀ j < 4, 4 + 1024 * j < blockSize * p / blockSize + totalBlocks size →
      Readable build (indirect s.objs n j - writeOffset) := by
    intro j hj hlt
    rw [hdiv] at hlt
    obtain ⟨k, hlo, hhi, hne⟩ := htables j hj hlt
    exact readable_table h.names.store hj hlo hhi hne
  obtain ⟨dev, hread, hdev⟩ := @objstoreRead_spec build True s n h.names.store
    (h.slots n hlive) size (blockSize * p) (by rw [hdiv]; exact hmapped) hthere
  rw [hdiv] at hread
  rw [hst.pageBytes_eq hmapped] at hread
  have hid : ¬((n : ℤ) + 2 < 2) := by omega
  have hsize : ¬((size : ℤ) < 0) := by omega
  have hslot : ((n : ℤ) + 2 - 2).toNat = n := by omega
  refine ⟨0, _, fs, ⟨size, none, none, (List.range size).map fun i => f.byte (blockSize * p + i)⟩,
    ?_, ?_, h.idle s.temp hdev⟩
  · simp only [callback, objfsRead, hread, Option.map_some, if_neg hsize]
  · simp only [onFiles, if_neg hid, hslot, hf, Option.map_some]

end Searches

section Changes

variable {fs : Files} {f : File} {number : CString → Option ℕ}

/-- The numbers of the names once slot `n` was given a name. -/
lemma numbers_assigned (ha : Assigned s s' n name) (hfree : ∀ i, i ≠ n → s.named name i = false)
    (hk : Fits name) (hself : number name = some n)
    (hother : ∀ k, k ≠ name → Fits k → ∀ i, number k = some i ↔ i ≠ n ∧ s.named k i = true) :
    ∀ k, Fits k → ∀ i, number k = some i ↔ s'.named k i = true := by
  intro k hk' i
  by_cases hin : i = n
  · subst hin
    rw [ha.self k]
    by_cases hkn : k = name
    · subst hkn
      simp [hself]
    · rw [hother k hkn hk' i]
      simp [Ne.symm hkn]
  · rw [ha.other i k hin hk']
    by_cases hkn : k = name
    · subst hkn
      simp [hself, hfree i hin, Ne.symm hin]
    · rw [hother k hkn hk' i]
      simp [hin]

/-- A new object is an empty file. -/
theorem answered_create {key : Path} (h : Holds build s fs) (hp : Served build s (.create key)) :
    Answered build s fs (.create key) := by
  obtain ⟨hk, hfree, x, hx, hdead⟩ := hp
  have hlt : x < slotCount := by
    have := inObjs_iff.mp hx
    rw [slotCount_eq]
    omega
  obtain ⟨n, hle, hn⟩ := exists_firstBelow (p := fun j => !bit s.bitMapInode j) hlt
    (by simpa [Store.live] using hdead)
  have hslot := hx.mono hle
  have hclear : s.live n = false := FirstFree.clear hn
  have hempty : fs.file n = none := by
    by_contra hne
    rw [(h.file n).mp (Option.isSome_iff_ne_none.mpr hne)] at hclear
    cases hclear
  have ha := created_assigned (s := s) (n := n) hk
  have hnames := assigned_ok h.names ha hk (fun i _ => hfree i) (created_ok h.names.store hn.1 hk)
  refine ⟨n, created s n key.name, fs.create key.name n, { ret := 0, fh := some (n + 2 : ℕ) },
    ?_, ?_, hnames, h.lock, fun i hi => ?_, h.rooted.of_eq (value_created hk), ?_, fun i => ?_,
    fun i f hf => ?_⟩
  · have hid : ¬((n + 2 : ℕ) : ℤ) < 0 := by omega
    simp only [callback, objfsCreate, createObject_eq hn, if_pos (keyInObjs hslot hk),
      Option.map_some, if_neg hid]
  · simp only [onFiles, hempty, Option.isSome_none, Bool.false_eq_true, if_false]
  · by_cases hin : i = n
    · exact hin ▸ hslot
    · rw [ha.live i hin] at hi
      exact h.slots i hi
  · refine numbers_assigned ha (fun i _ => hfree i) hk (Function.update_self _ _ _)
      fun k hkn hk' i => ?_
    simp only [Files.create, Function.update_of_ne hkn]
    rw [h.number k hk' i]
    refine ⟨fun hi => ⟨?_, hi⟩, fun hi => hi.2⟩
    rintro rfl
    rw [(named_iff.mp hi).1] at hclear
    cases hclear
  · by_cases hin : i = n
    · subst hin
      simp [Files.create, live_created]
    · simp only [Files.create, Function.update_of_ne hin]
      rw [h.file i, ha.live i hin]
  · by_cases hin : i = n
    · subst hin
      simp only [Files.create, Function.update_self, Option.some.injEq] at hf
      subst hf
      have hzero : ∀ k, value build (created s i key.name) (.ofBlock i k) = 0 := by
        intro k
        rw [value_created hk]
        exact h.names.store.value_dead (by simpa using hclear)
      refine ⟨?_, fun k _ => by simp [hzero k], fun k _ b hb => by simp at hb, Nat.zero_le _⟩
      rw [objSize_created hk, (h.names.store.clean i hclear).1]
      rfl
    · simp only [Files.create, Function.update_of_ne hin] at hf
      exact (h.stores i f hf).congr (objSize_created hk) (fun _ => by rw [value_created hk])
        fun _ _ => rfl

/-- An object that gets another name stays the file it is. -/
theorem answered_rename {oldkey newkey : Path} (h : Holds build s fs)
    (hp : Served build s (.rename oldkey newkey)) :
    Answered build s fs (.rename oldkey newkey) := by
  obtain ⟨hk, hk', hfree⟩ := hp
  obtain ⟨hnumber, -, hnone⟩ | ⟨n, f, hnumber, hf, hat, -⟩ := h.find hk
  · refine ⟨0, s, fs, { ret := -einval }, ?_, ?_, h⟩
    · rw [callback, objfsRenameKey, renameObject_none hnone]
      rfl
    · simp only [onFiles, hnumber]
  have hid := h.names.store.ids n hat.live
  have ha := renamed_assigned (s := s) hk' hat.live
  have hnamed : s.named oldkey.name n = true := hat.2.1
  have hnames := assigned_ok h.names ha hk' (fun i _ => hfree i) (renamed_ok h.names.store hk')
  refine ⟨0, renamed s n newkey.name, fs.rename oldkey.name newkey.name n, { ret := 0 }, ?_, ?_,
    hnames, h.lock, h.slots, h.rooted.of_eq (value_renamed hk'), ?_, h.file, fun i f hf => ?_⟩
  · have hpos : ¬((n : ℤ) + 2 < 0) := by omega
    simp only [callback, objfsRenameKey, renameObject_eq hat,
      if_pos (keyInObjs (h.slots n hat.live) hk'), hid, Option.map_some, if_neg hpos]
  · simp only [onFiles, hnumber]
  · refine numbers_assigned ha (fun i _ => hfree i) hk' (Function.update_self _ _ _)
      fun k hkn hfits i => ?_
    simp only [Files.rename, Function.update_of_ne hkn]
    by_cases hko : k = oldkey.name
    · subst hko
      rw [Function.update_self]
      refine ⟨nofun, fun ⟨hin, hi⟩ => ?_⟩
      exact absurd (h.names.unique _ i n hi hnamed) hin
    · rw [Function.update_of_ne hko, h.number k hfits i]
      refine ⟨fun hi => ⟨?_, hi⟩, fun hi => hi.2⟩
      rintro rfl
      exact hko (named_inj hi hnamed)
  · exact (h.stores i f hf).congr (objSize_setKey hk') (fun _ => by rw [value_renamed hk'])
      fun _ _ => rfl

/-- An object that is destroyed takes its name and its file with it. -/
theorem answered_unlink {key : Path} (h : Holds build s fs) (hk : Fits key.name) :
    Answered build s fs (.unlink key) := by
  obtain ⟨hnumber, -, hnone⟩ | ⟨n, f, hnumber, hf, hat, -⟩ := h.find hk
  · refine ⟨0, s, fs, { ret := 0 }, ?_, ?_, h⟩
    · rw [callback, objfsUnlink, destroyObject_none hnone]
      rfl
    · simp only [onFiles, hnumber]
  have he := destroyed_emptied h.names.store hat.live
  have hnamed : s.named key.name n = true := hat.2.1
  refine ⟨0, destroyed build s n, fs.remove key.name n, { ret := 0 }, ?_, ?_,
    (destroyed_names h.names hat).1, he.lock.trans h.lock, fun i hi => ?_,
    rooted_emptied h.rooted he, fun k hk' i => ?_, fun i => ?_, fun i f hf => ?_⟩
  · rw [callback, objfsUnlink, destroyObject_eq hat, if_pos (h.slots n hat.live),
      Option.map_some]
  · simp only [onFiles, hnumber]
  · rw [he.lives, Bool.and_eq_true] at hi
    exact h.slots i hi.1
  · have hrest : (destroyed build s n).named k i = (s.named k i && decide (i ≠ n)) := by
      rw [Store.named, Store.named, he.lives, he.keys i k hk', Bool.and_right_comm]
    rw [hrest, Bool.and_eq_true, decide_eq_true_eq]
    by_cases hkn : k = key.name
    · subst hkn
      simp only [Files.remove, Function.update_self]
      refine iff_of_false (by simp) fun hi => ?_
      exact hi.2 (h.names.unique _ i n hi.1 hnamed)
    · simp only [Files.remove, Function.update_of_ne hkn, h.number k hk' i]
      refine ⟨fun hi => ⟨hi, ?_⟩, fun hi => hi.1⟩
      rintro rfl
      exact hkn (named_inj hi hnamed)
  · rw [he.lives, Bool.and_eq_true, decide_eq_true_eq, ← h.file i]
    by_cases hin : i = n
    · subst hin
      simp [Files.remove]
    · simp [Files.remove, hin]
  · by_cases hin : i = n
    · subst hin
      simp [Files.remove] at hf
    · simp only [Files.remove, Function.update_of_ne hin] at hf
      refine (h.stores i f hf).congr (he.sizes i hin) (fun k => ?_) fun k hne => ?_
      · rw [he.values, if_neg (by rwa [Ref.slot_ofBlock])]
      · exact he.views _ (by rwa [Ref.slot_ofBlock]) hne

/-- One more page is one more page. -/
lemma File.card_fill (hk : k < 4100) (hnone : f.page k = none) (buf : Memory) :
    ((Finset.range 4100).filter fun i => ((f.fill buf size k).page i).isSome).card =
      ((Finset.range 4100).filter fun i => (f.page i).isSome).card + 1 := by
  have hinsert : ((Finset.range 4100).filter fun i => ((f.fill buf size k).page i).isSome) =
      insert k ((Finset.range 4100).filter fun i => (f.page i).isSome) := by
    ext i
    simp only [Finset.mem_insert, Finset.mem_filter, Finset.mem_range]
    by_cases hik : i = k
    · subst hik
      simp only [File.fill, Function.update_self, Option.isSome_some, hk, true_and, true_or]
    · simp only [File.fill, Function.update_of_ne hik, hik, false_or]
  rw [hinsert, Finset.card_insert_of_notMem (by simp [hnone])]

/-- A page that is written once. -/
lemma Stores.fill {buf : Memory} {b : ℕ} (h : Stores build s n f) (hk : k < 4100)
    (hnone : f.page k = none) (hsize : size ≤ blockSize)
    (hf : Filled build s s' n k size b (bufferPage buf size)) :
    Stores build s' n (f.fill buf size k) := by
  have hcard : ((Finset.range 4100).filter fun i => (f.page i).isSome).card ≤ 4100 :=
    (Finset.card_filter_le _ _).trans (by simp)
  have hbound : f.size ≤ 4096 * ((Finset.range 4100).filter fun i => (f.page i).isSome).card :=
    h.bound
  have hsize' : size ≤ 4096 := hsize
  have hval : ∀ i < 4100, i ≠ k → value build s' (.ofBlock n i) = value build s (.ofBlock n i) := by
    intro i hi hik
    rw [hf.data _ (Ref.isData_ofBlock n i), if_neg fun he => hik (Ref.ofBlock_inj hi hk he).2]
  have hself : value build s' (.ofBlock n k) = writeOffset + b := by
    rw [hf.data _ (Ref.isData_ofBlock n k), if_pos rfl]
  refine ⟨?_, fun i hi => ?_, fun i hi page hpage => ?_, ?_⟩
  · rw [hf.record.grown _ h.size (by omega) (by omega)]
    exact (Nat.cast_add _ _).symm
  · by_cases hik : i = k
    · subst hik
      simp [File.fill, hself, position_ne_zero]
    · rw [hval i hi hik, ← h.holes i hi]
      simp only [File.fill, Function.update_of_ne hik]
  · by_cases hik : i = k
    · subst hik
      simp only [File.fill, Function.update_self, Option.some.injEq] at hpage
      rw [blockOf, hself, position_sub, hf.here, hpage]
    · simp only [File.fill, Function.update_of_ne hik] at hpage
      have hne : value build s (.ofBlock n i) ≠ 0 := by
        intro hzero
        rw [(h.holes i hi).mpr hzero] at hpage
        cases hpage
      rw [blockOf, hval i hi hik, hf.there _ (Ref.isData_ofBlock n i)
        (fun he => hik (Ref.ofBlock_inj hi hk he).2) hne]
      exact h.pages i hi page hpage
  · rw [File.card_fill hk hnone]
    show f.size + size ≤ 4096 * (_ + 1)
    omega

/-- A page that is written becomes a page of its file. -/
theorem answered_write {fh : ℤ} {buf : Memory} (h : Holds build s fs)
    (hp : Served build s (.write fh buf size offset)) :
    Answered build s fs (.write fh buf size offset) := by
  obtain hlow | ⟨n, rfl, hlive, -, hsize, hblock, hhole, hroom⟩ := hp
  · refine ⟨0, s, fs, { ret := -einval }, ?_, ?_, h⟩
    · rw [callback, objfsWrite, objstoreWrite_reserved hlow]
      rfl
    · rw [onFiles, if_pos hlow]
  obtain ⟨f, hf⟩ := Option.isSome_iff_exists.mp ((h.file n).mpr hlive)
  have hst := h.stores n f hf
  obtain ⟨b, t, hpicks⟩ := exists_picks hroom
  have hwrite : objstoreWrite build s (n + 2) buf size offset = some (_, (size : ℤ)) :=
    objstoreWrite_hung h.names.store ⟨hsize, h.slots n hlive, hblock, h.lock⟩ hhole hpicks
  obtain ⟨hok, hfill⟩ := hung_spec (z := size) (p := bufferPage buf size) h.names.store hlive
    hblock hhole hpicks
  have hrooted := rooted_hung size (bufferPage buf size) h.rooted h.names.store hblock
    hpicks
  generalize hung build s n (offset / blockSize) size b t (bufferPage buf size) = s' at *
  have hlives : ∀ i, s'.live i = s.live i := fun i => by
    rw [Store.live, Store.live, hfill.inodes]
  have hid : ¬((n : ℤ) + 2 < 2) := by omega
  have hnot : ¬((size : ℤ) < 0) := by omega
  have hslot : ((n : ℤ) + 2 - 2).toNat = n := by omega
  refine ⟨0, s', fs.write n f buf size (offset / blockSize), { ret := size }, ?_, ?_,
    h.names.of_same hok hlives hfill.record.keys, hfill.lock.trans h.lock, fun i hi => ?_,
    hrooted, fun k hk i => ?_, fun i => ?_, fun i g hg => ?_⟩
  · simp only [callback, objfsWrite, hwrite, Option.map_some, if_neg hnot]
  · simp only [onFiles, if_neg hid, hslot, hf, Option.map_some]
  · exact h.slots i (hlives i ▸ hi)
  · rw [Store.named, hlives, hfill.record.keys i k hk]
    exact h.number k hk i
  · rw [hlives, ← h.file i]
    by_cases hin : i = n
    · subst hin
      simp [Files.write, hf]
    · simp only [Files.write, Function.update_of_ne hin]
  · by_cases hin : i = n
    · subst hin
      simp only [Files.write, Function.update_self, Option.some.injEq] at hg
      rw [← hg]
      exact hst.fill hblock ((hst.holes _ hblock).mpr hhole) hsize hfill
    · simp only [Files.write, Function.update_of_ne hin] at hg
      have hne : ∀ x, Ref.ofBlock i x ≠ Ref.ofBlock n (offset / blockSize) := by
        intro x he
        have hslots := congrArg Ref.slot he
        rw [Ref.slot_ofBlock, Ref.slot_ofBlock] at hslots
        exact hin hslots
      refine (h.stores i g hg).congr (hfill.record.sizes i hin) (fun x => ?_) fun x hx =>
        hfill.there _ (Ref.isData_ofBlock i x) (hne x) hx
      rw [hfill.data _ (Ref.isData_ofBlock i x), if_neg (hne x)]

end Changes

section Runs

variable {fs : Files}

/-- Every callback is answered as it is on files. -/
theorem callback_answered {c : Callback} (h : Holds build s fs) (hp : Served build s c) :
    Answered build s fs c := by
  cases c with
  | getattr key => exact answered_getattr h hp
  | create key => exact answered_create h hp
  | unlink key => exact answered_unlink h hp
  | rename oldkey newkey => exact answered_rename h hp
  | openFile key => exact answered_open h hp
  | read fh size offset => exact answered_read h hp
  | write fh buf size offset => exact answered_write h hp
  | release fh => exact ⟨0, s, fs, _, rfl, rfl, h⟩

/-- No files. -/
def noFiles : Files := ⟨fun _ => none, fun _ => none⟩

lemma empty_holds {d : Device} (hs : Empty d s) : Holds build s noFiles := by
  refine ⟨empty_names hs, hs.lock, fun n hn => ?_, fun n l hne => ?_, fun k _ n => ?_,
    fun n => ?_, fun n f hf => by cases hf⟩
  · rw [hs.live] at hn
    cases hn
  · exact absurd ((empty_names hs).store.value_dead (r := .pointer n _) (hs.live n)) hne
  · simp [noFiles, Store.named, hs.live]
  · simp [noFiles, hs.live]

/-- From a store that holds files on, every run of callbacks is one on the files, for some choice of
the numbers of new files. -/
theorem callbacks_on_files (build : Build) (s : Store) (fs : Files) (h : Holds build s fs)
    (calls : List Callback) (hserved : Along (callback build) (Served build) s calls) :
    ∃ (numbers : List ℕ) (s' : Store) (fs' : Files) (rs : List Result),
      numbers.length = calls.length ∧
        Machine.run (callback build) s calls = some (s', rs) ∧
        Machine.run onFiles fs (numbers.zip calls) = some (fs', rs) ∧ Holds build s' fs' :=
  hserved.simulate_choice (fun _ _ _ h hp => callback_answered h hp) h

/-- A first file, with one page that is read back. -/
def firstCallbacks : List Callback :=
  [.create ⟨keyA⟩, .write 2 ones blockSize 0, .read 2 blockSize 0]

lemma firstCallbacks_served :
    Along (callback .objfs) (Served .objfs) (objstoreInit blankDevice) firstCallbacks := by
  have hempty := objstoreInit_empty blankDevice_blank
  have hfits : Fits keyA := by decide
  have hcreate : callback .objfs (objstoreInit blankDevice) (.create ⟨keyA⟩) =
      some (created (objstoreInit blankDevice) 0 keyA, { ret := 0, fh := some 2 }) := by
    simp only [callback, objfsCreate, createObject_eq hempty.firstSlot,
      if_pos (keyInObjs (n := 0) (by decide) hfits)]
    rfl
  have hwrite : callback .objfs (created (objstoreInit blankDevice) 0 keyA)
      (.write 2 ones blockSize 0) = some (firstWritten 0, { ret := blockSize }) := by
    have hok : StoreOk .objfs True (created (objstoreInit blankDevice) 0 keyA) :=
      hempty.createdOk hfits
    have hrun : objstoreWrite .objfs (created (objstoreInit blankDevice) 0 keyA) ((0 : ℕ) + 2) ones
        blockSize (blockSize * 0) = _ :=
      objstoreWrite_hung hok ⟨le_rfl, by decide, by norm_num, hempty.lock⟩
        (hempty.createdValue hfits _) (hempty.picks _)
    have hsize : ¬((blockSize : ℤ) < 0) := by norm_num
    rw [callback, objfsWrite]
    show (objstoreWrite .objfs _ ((0 : ℕ) + 2) ones blockSize (blockSize * 0)).map _ = _
    rw [hrun, Option.map_some, if_neg hsize]
    rfl
  have hpage : value .objfs (firstWritten 0) (.ofBlock 0 0) ≠ 0 := by
    rw [(firstWritten_spec (k := 0) (by norm_num)).2.data _ (Ref.isData_ofBlock 0 0), if_pos rfl]
    exact position_ne_zero 0
  refine ⟨⟨hfits, fun n => ?_, 0, by decide, hempty.live 0⟩, fun s₁ r₁ h₁ => ?_⟩
  · rw [Store.named, hempty.live, Bool.false_and]
  rw [hcreate, Option.some.injEq, Prod.mk.injEq] at h₁
  obtain ⟨rfl, -⟩ := h₁
  refine ⟨Or.inr ⟨0, rfl, by simp [live_created], dvd_zero _, le_rfl, by norm_num,
    hempty.createdValue hfits _, hempty.createdCost 0 _⟩, fun s₂ r₂ h₂ => ?_⟩
  rw [hwrite, Option.some.injEq, Prod.mk.injEq] at h₂
  obtain ⟨rfl, -⟩ := h₂
  refine ⟨Or.inr ⟨0, rfl, firstWritten_live (by norm_num), dvd_zero _, fun i hi => ?_,
    fun j _ hlt => ?_⟩, fun _ _ _ => trivial⟩
  · have hfirst : 4096 * i < 4096 := lt_totalBlocks.mp hi
    have hzero : i = 0 := by omega
    subst hzero
    exact ⟨by norm_num, hpage⟩
  · have hone : 0 + totalBlocks blockSize = 1 := by decide
    rw [Nat.zero_div, hone] at hlt
    omega

theorem callbacks_on_first_file : ∃ (numbers : List ℕ) (s : Store) (fs : Files)
    (rs : List Result), numbers.length = 3 ∧
    Machine.run (callback .objfs) (objstoreInit blankDevice) firstCallbacks = some (s, rs) ∧
      Machine.run onFiles noFiles (numbers.zip firstCallbacks) = some (fs, rs) ∧
        Holds .objfs s fs :=
  callbacks_on_files .objfs _ noFiles (empty_holds (objstoreInit_empty blankDevice_blank)) _
    firstCallbacks_served

end Runs

end OsAssignments.FileSystem
