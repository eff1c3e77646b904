import OsAssignments.Capacity
import OsAssignments.Programs

/-!
# Threads with files of their own

Threads that use the file system side by side, each under names of its own, need not
know of each other: what a thread knows of its files changes by its own callbacks only,
and there is room for what it writes as long as every thread keeps to its share.
-/
namespace OsAssignments.FileSystem

open ByteMemory Bitmap ObjectTable Programs

variable {build : Build} {s s' : Store} {fs fs' : Files} {f : File} {name name' : CString} {n k : ℕ}
  {w : File → ℕ}

section Lookup

/-- The number and the file behind a name. -/
def Files.lookup (fs : Files) (name : CString) : Option (ℕ × File) :=
  (fs.number name).bind fun n => (fs.file n).map fun f => (n, f)

lemma lookup_eq_some :
    fs.lookup name = some (n, f) ↔ fs.number name = some n ∧ fs.file n = some f := by
  rw [Files.lookup, Option.bind_eq_some_iff]
  constructor
  · rintro ⟨m, hm, hf⟩
    obtain ⟨g, hg, heq⟩ := Option.map_eq_some_iff.mp hf
    cases heq
    exact ⟨hm, hg⟩
  · rintro ⟨hn, hf⟩
    exact ⟨n, hn, by rw [hf, Option.map_some]⟩

/-- Names stand for files, and different names for different files. -/
structure Named (fs : Files) : Prop where
  there : ∀ name, Fits name → ∀ n, fs.number name = some n → n < objectSlots ∧ (fs.file n).isSome
  inj : ∀ name name', Fits name → Fits name' → ∀ n, fs.number name = some n →
    fs.number name' = some n → name = name'

lemma Holds.wellNamed (h : Holds build s fs) : Named fs := by
  have hlive : ∀ name, Fits name → ∀ n, fs.number name = some n → s.live n = true :=
    fun name hk n hn => (named_iff.mp ((h.number name hk n).mp hn)).1
  refine ⟨fun name hk n hn => ⟨?_, ?_⟩, fun name name' hk hk' n hn hn' => ?_⟩
  · exact inObjs_iff_lt.mp (h.slots n (hlive name hk n hn))
  · exact (h.file n).mpr (hlive name hk n hn)
  · exact named_inj ((h.number name hk n).mp hn) ((h.number name' hk' n).mp hn')

/-- Lookups after file `n` was given another contents, or none. -/
lemma lookup_congr (hn : fs.number name ≠ some n) (hnumber : fs'.number name = fs.number name)
    (hfile : ∀ i, i ≠ n → fs'.file i = fs.file i) : fs'.lookup name = fs.lookup name := by
  rw [Files.lookup, Files.lookup, hnumber]
  cases hm : fs.number name with
  | none => rfl
  | some m =>
    have hne : m ≠ n := fun heq => hn (hm.trans (congrArg some heq))
    rw [Option.bind_some, Option.bind_some, hfile m hne]

variable (h : Named fs) (hk : Fits name)
include h hk

lemma lookup_eq_none : fs.lookup name = none ↔ fs.number name = none := by
  cases hn : fs.number name with
  | none => simp [Files.lookup, hn]
  | some n =>
    obtain ⟨f, hf⟩ := Option.isSome_iff_exists.mp (h.there name hk n hn).2
    simp [Files.lookup, hn, hf]

/-- The name of a file that was not there. -/
lemma number_ne_of_none (hfile : fs.file n = none) : fs.number name ≠ some n := by
  intro hn
  have hthere := (h.there name hk n hn).2
  rw [hfile] at hthere
  cases hthere

lemma number_ne_of_ne (hk' : Fits name') (hn : fs.number name = some n) (hne : name' ≠ name) :
    fs.number name' ≠ some n :=
  fun hn' => hne (h.inj name' name hk' hk n hn' hn)

end Lookup

section Lookups

lemma lookup_create (h : Named fs) (hk : Fits name') (hfile : fs.file n = none) :
    (fs.create name n).lookup name' =
      if name' = name then some (n, ⟨0, fun _ => none⟩) else fs.lookup name' := by
  split_ifs with hname
  · subst hname
    simp only [Files.lookup, Files.create, Function.update_self, Option.bind_some, Option.map_some]
  · refine lookup_congr (number_ne_of_none h hk hfile) ?_ fun i hi => ?_
    · simp only [Files.create, Function.update_of_ne hname]
    · simp only [Files.create, Function.update_of_ne hi]

lemma lookup_remove (h : Named fs) (hk : Fits name) (hk' : Fits name')
    (hn : fs.number name = some n) :
    (fs.remove name n).lookup name' = if name' = name then none else fs.lookup name' := by
  split_ifs with hname
  · subst hname
    simp only [Files.lookup, Files.remove, Function.update_self, Option.bind_none]
  · refine lookup_congr (number_ne_of_ne h hk hk' hn hname) ?_ fun i hi => ?_
    · simp only [Files.remove, Function.update_of_ne hname]
    · simp only [Files.remove, Function.update_of_ne hi]

lemma lookup_rename {new : CString} (hn : fs.number name = some n) :
    (fs.rename name new n).lookup name' = if name' = new then fs.lookup name
      else if name' = name then none else fs.lookup name' := by
  split_ifs with hnew hname
  · subst hnew
    simp only [Files.lookup, Files.rename, Function.update_self, hn]
  · subst hname
    simp only [Files.lookup, Files.rename, Function.update_of_ne hnew, Function.update_self,
      Option.bind_none]
  · simp only [Files.lookup, Files.rename, Function.update_of_ne hnew, Function.update_of_ne hname]

lemma lookup_write {buf : Memory} {size : ℕ} (h : Named fs) (hk : Fits name) (hk' : Fits name')
    (hn : fs.number name = some n) :
    (fs.write n f buf size k).lookup name' =
      if name' = name then some (n, f.fill buf size k) else fs.lookup name' := by
  split_ifs with hname
  · subst hname
    exact lookup_eq_some.mpr ⟨hn, Function.update_self _ _ _⟩
  · refine lookup_congr (number_ne_of_ne h hk hk' hn hname) rfl fun i hi => ?_
    simp only [Files.write, Function.update_of_ne hi]

end Lookups

section Shares

variable {ι : Type*} [DecidableEq ι] [Fintype ι] {names : ι → Finset CString} {quota : ι → ℕ}
  {limit : ℕ} {i : ι}

/-- What a thread knows: the number and the file behind each of its names. -/
abbrev Part := CString → Option (ℕ × File)

variable {v : ι → Part} {u : Part}

/-- What the files of a thread weigh. -/
def Part.total (w : File → ℕ) (names : Finset CString) (u : Part) : ℕ :=
  ∑ name ∈ names, (u name).elim 0 fun x => w x.2

lemma part_update {names : Finset CString} (w : File → ℕ) (u : Part) (hname : name ∈ names)
    (x : Option (ℕ × File)) :
    Part.total w names (Function.update u name x) + (u name).elim 0 (fun x => w x.2) =
      u.total w names + x.elim 0 fun x => w x.2 := by
  have hsum := sum_changed (g := fun m => (u m).elim 0 fun x => w x.2)
    (h := fun m => (Function.update u name x m).elim 0 fun x => w x.2) hname
    fun m _ hm => by rw [Function.update_of_ne hm]
  rwa [Function.update_self] at hsum

/-- The threads keep to their quotas, and what is left of them is within a limit. -/
structure Budget (w : File → ℕ) (limit : ℕ) (names : ι → Finset CString) (quota : ι → ℕ)
    (fs : Files) (v : ι → Part) : Prop where
  within : ∀ i, (v i).total w (names i) ≤ quota i
  left : fs.total w + ∑ i, (quota i - (v i).total w (names i)) ≤ limit

/-- What a thread takes is taken from its quota. -/
lemma Budget.step (h : Budget w limit names quota fs v) (hquota : u.total w (names i) ≤ quota i)
    (hchange : fs'.total w + (v i).total w (names i) = fs.total w + u.total w (names i)) :
    Budget w limit names quota fs' (Function.update v i u) := by
  constructor
  · intro j
    rcases eq_or_ne j i with rfl | hj
    · rwa [Function.update_self]
    · rw [Function.update_of_ne hj]
      exact h.within j
  · have hsum := sum_changed (S := Finset.univ)
      (g := fun j => quota j - (v j).total w (names j))
      (h := fun j => quota j - (Function.update v i u j).total w (names j)) (Finset.mem_univ i)
      fun j _ hj => by rw [Function.update_of_ne hj]
    rw [Function.update_self] at hsum
    have hleft := h.left
    have hold := h.within i
    omega

omit [DecidableEq ι] in
/-- Within its quota a thread finds what it needs. -/
lemma Budget.room {extra : ℕ} (h : Budget w limit names quota fs v)
    (hroom : (v i).total w (names i) + extra ≤ quota i) : fs.total w + extra ≤ limit := by
  have hleft := h.left
  have hone : quota i - (v i).total w (names i) ≤ ∑ j, (quota j - (v j).total w (names j)) :=
    Finset.single_le_sum (f := fun j => quota j - (v j).total w (names j))
      (fun j _ => Nat.zero_le _) (Finset.mem_univ i)
  omega

/-- What a thread may use: names of its own, and a number of data blocks. -/
structure Share where
  names : Finset CString
  quota : ℕ

/-- The shares of threads that do not get in each other's way. -/
structure Apart (own : ι → Share) : Prop where
  apart : ∀ i j, ∀ name ∈ (own i).names, name ∈ (own j).names → i = j
  fits : ∀ i, ∀ name ∈ (own i).names, Fits name
  root : ∀ i, ∀ name ∈ (own i).names, ¬Path.IsRoot ⟨name⟩

/-- What every thread knows is so, and no thread has more than its share. -/
structure Split (own : ι → Share) (fs : Files) (v : ι → Part) : Prop where
  known : ∀ i, ∀ name ∈ (own i).names, v i name = fs.lookup name
  blocks : Budget File.blocks dataBits (fun i => (own i).names) (fun i => (own i).quota) fs v
  slots : Budget (fun _ => 1) objectSlots (fun i => (own i).names)
    (fun i => (own i).names.card) fs v

/-- The callbacks a thread may make, and what it learns from their results. -/
def owned (share : Share) : Spec Callback (fun _ => Result) Part where
  pre v
    | .getattr key | .unlink key | .openFile key => key.name ∈ share.names
    | .create key => key.name ∈ share.names ∧ v key.name = none
    | .rename oldkey newkey => oldkey.name ∈ share.names ∧ newkey.name ∈ share.names ∧
        v newkey.name = none
    | .read fh size offset => ∃ name ∈ share.names, ∃ (n : ℕ) (f : File),
        v name = some (n, f) ∧ fh = n + 2 ∧ blockSize ∣ offset ∧
        (∀ i < totalBlocks size, offset / blockSize + i ∈ f.pages) ∧
        ∀ j < 4, 4 + 1024 * j < offset / blockSize + totalBlocks size → f.HasTable j
    | .write fh _ size offset => ∃ name ∈ share.names, ∃ (n : ℕ) (f : File),
        v name = some (n, f) ∧ fh = n + 2 ∧ blockSize ∣ offset ∧ size ≤ blockSize ∧
        offset / blockSize < 4100 ∧ f.page (offset / blockSize) = none ∧
        v.total File.blocks share.names + f.cost (offset / blockSize) ≤ share.quota
    | .release _ => True
  post v
    | .getattr key, u, r => u = v ∧ r = match v key.name with
        | none => { ret := -enoent }
        | some (n, f) => { ret := 0, stat := some (f.stat n) }
    | .create key, u, r => ∃ n : ℕ, r = { ret := 0, fh := some (n + 2 : ℕ) } ∧
        u = Function.update v key.name (some (n, ⟨0, fun _ => none⟩))
    | .unlink key, u, r => u = Function.update v key.name none ∧ r = { ret := 0 }
    | .rename oldkey newkey, u, r => match v oldkey.name with
        | none => u = v ∧ r = { ret := -einval }
        | some x => u = Function.update (Function.update v oldkey.name none) newkey.name (some x) ∧
            r = { ret := 0 }
    | .openFile key, u, r => u = v ∧ r = match v key.name with
        | none => { ret := -enoent }
        | some (n, _) => { ret := 0, fh := some (n + 2 : ℕ) }
    | .read fh size offset, u, r => u = v ∧ ∀ name ∈ share.names, ∀ (n : ℕ) (f : File),
        v name = some (n, f) → fh = n + 2 →
          r = { ret := size, bytes := (List.range size).map fun i => f.byte (offset + i) }
    | .write fh buf size offset, u, r => r = { ret := size } ∧ ∀ name ∈ share.names,
        ∀ (n : ℕ) (f : File), v name = some (n, f) → fh = n + 2 →
          u = Function.update v name (some (n, f.fill buf size (offset / blockSize)))
    | .release _, u, r => u = v ∧ r = { ret := -einval }

end Shares

section Answers

variable {ι : Type*} [DecidableEq ι] [Fintype ι] {own : ι → Share} {v : ι → Part} {u : Part}
  {i : ι} {c : Callback}

/-- A name has one file at most. -/
lemma total_one_le (names : Finset CString) (u : Part) :
    u.total (fun _ => 1) names ≤ names.card := by
  rw [Finset.card_eq_sum_ones]
  refine Finset.sum_le_sum fun name _ => ?_
  cases u name <;> simp

omit [DecidableEq ι] in
/-- With a name that has no file there is a number for it. -/
lemma Split.free_slot (h : Split own fs v) (hname : name ∈ (own i).names)
    (hnone : v i name = none) : ∃ n < objectSlots, fs.file n = none := by
  have hone := part_update (fun _ => 1) (v i) hname (some (0, ⟨0, fun _ => none⟩))
  rw [hnone] at hone
  have hle := total_one_le (own i).names
    (Function.update (v i) name (some (0, ⟨0, fun _ => none⟩)))
  have hroom : fs.total (fun _ => 1) + 1 ≤ objectSlots :=
    h.slots.room (i := i) (by simp at hone; omega)
  by_contra hfull
  push Not at hfull
  have hall : fs.total (fun _ => 1) = objectSlots := by
    rw [Files.total, Finset.sum_congr rfl fun n hn => ?_, ← Finset.card_eq_sum_ones,
      Finset.card_range]
    obtain ⟨f, hf⟩ := Option.ne_none_iff_exists'.mp (hfull n (Finset.mem_range.mp hn))
    rw [hf, Option.elim_some]
  omega

omit [DecidableEq ι] in
/-- The store has room for what a thread may do. -/
theorem Split.allowed (h : Split own fs v) (hown : Apart own) (hn : Named fs)
    (hpre : (owned (own i)).pre (v i) c) : Allowed fs c := by
  have hnumber : ∀ name ∈ (own i).names, v i name = none → fs.number name = none := by
    intro name hname hnone
    rw [h.known i name hname] at hnone
    exact (lookup_eq_none hn (hown.fits i name hname)).mp hnone
  have hfile : ∀ name ∈ (own i).names, ∀ n f, v i name = some (n, f) →
      n < objectSlots ∧ fs.file n = some f := by
    intro name hname n f hv
    rw [h.known i name hname, lookup_eq_some] at hv
    exact ⟨(hn.there name (hown.fits i name hname) n hv.1).1, hv.2⟩
  cases c with
  | getattr key | unlink key | openFile key => exact hown.fits i _ hpre
  | release fh => trivial
  | create key =>
    exact ⟨hown.fits i _ hpre.1, hnumber _ hpre.1 hpre.2, h.free_slot hpre.1 hpre.2⟩
  | rename oldkey newkey =>
    exact ⟨hown.fits i _ hpre.1, hown.fits i _ hpre.2.1, hnumber _ hpre.2.1 hpre.2.2⟩
  | read fh size offset =>
    obtain ⟨name, hname, n, f, hv, hfh, hrest⟩ := hpre
    exact Or.inr ⟨n, f, hfh, (hfile name hname n f hv).2, hrest⟩
  | write fh buf size offset =>
    obtain ⟨name, hname, n, f, hv, hfh, halign, hsize, hblock, hnone, hquota⟩ := hpre
    obtain ⟨hslot, hf⟩ := hfile name hname n f hv
    refine Or.inr ⟨n, f, hfh, hf, halign, hsize, hblock, hnone, ?_⟩
    rw [used_write hslot hf hblock hnone]
    exact h.blocks.room hquota

/-- What a thread does to its files concerns no other thread. -/
lemma Split.step (h : Split own fs v) (hown : Apart own)
    (hself : ∀ name ∈ (own i).names, u name = fs'.lookup name)
    (hother : ∀ name, Fits name → name ∉ (own i).names → fs'.lookup name = fs.lookup name)
    (hquota : u.total File.blocks (own i).names ≤ (own i).quota)
    (hchange : ∀ w, fs'.total w + (v i).total w (own i).names =
      fs.total w + u.total w (own i).names) : Split own fs' (Function.update v i u) := by
  refine ⟨fun j name hname => ?_, h.blocks.step hquota (hchange _),
    h.slots.step (total_one_le _ u) (hchange _)⟩
  rcases eq_or_ne j i with rfl | hj
  · rw [Function.update_self]
    exact hself name hname
  · rw [Function.update_of_ne hj, h.known j name hname]
    have hnot : name ∉ (own i).names := fun hmem => hj (hown.apart j i name hname hmem)
    exact (hother name (hown.fits j name hname) hnot).symm

/-- One name of a thread gets another file, or none. -/
lemma Split.change {y : Option (ℕ × File)} (h : Split own fs v) (hown : Apart own)
    (hname : name ∈ (own i).names)
    (hlookup : ∀ m, Fits m → fs'.lookup m = if m = name then y else fs.lookup m)
    (hquota : Part.total File.blocks (own i).names (Function.update (v i) name y) ≤ (own i).quota)
    (htotal : ∀ w : File → ℕ, fs'.total w + (v i name).elim 0 (fun x => w x.2) =
      fs.total w + y.elim 0 fun x => w x.2) :
    Split own fs' (Function.update v i (Function.update (v i) name y)) := by
  refine h.step hown (fun m hm => ?_) (fun m hm hnot => ?_) hquota fun w => ?_
  · rw [hlookup m (hown.fits i m hm), Function.update_apply, h.known i m hm]
  · have hne : m ≠ name := fun heq => hnot (heq ▸ hname)
    rw [hlookup m hm, if_neg hne]
  · have hpart := part_update w (v i) hname y
    have hfiles := htotal w
    omega

lemma Split.idle (h : Split own fs v) : Split own fs (Function.update v i (v i)) := by
  rwa [Function.update_eq_self]

/-- What a thread learns is allowed, and the files are split as before but for its own. -/
def Learns (own : ι → Share) (v : ι → Part) (i : ι) (c : Callback) (fs' : Files) (r : Result) :
    Prop :=
  ∃ u, (owned (own i)).post (v i) c u r ∧ Split own fs' (Function.update v i u)

variable {r : Result}

lemma lookup_cases (hn : Named fs) (hk : Fits name) :
    fs.number name = none ∧ fs.lookup name = none ∨
      ∃ n f, fs.number name = some n ∧ fs.file n = some f ∧ n < objectSlots ∧
        fs.lookup name = some (n, f) := by
  cases hnumber : fs.number name with
  | none => exact Or.inl ⟨rfl, (lookup_eq_none hn hk).mpr hnumber⟩
  | some n =>
    obtain ⟨hslot, hthere⟩ := hn.there name hk n hnumber
    obtain ⟨f, hf⟩ := Option.isSome_iff_exists.mp hthere
    exact Or.inr ⟨n, f, rfl, hf, hslot, lookup_eq_some.mpr ⟨hnumber, hf⟩⟩

variable (h : Split own fs v) (hown : Apart own) (hn : Named fs)
include h hown hn

lemma learns_getattr {key : Path} (hname : key.name ∈ (own i).names)
    (hc : onLowest fs (.getattr key) = some (fs', r)) : Learns own v i (.getattr key) fs' r := by
  have hknown := h.known i _ hname
  rw [onLowest, onFiles, if_neg (hown.root i _ hname)] at hc
  rcases lookup_cases hn (hown.fits i _ hname) with ⟨hnumber, hlook⟩ | ⟨n, f, hnumber, hf, -, hlook⟩
  · simp only [hnumber, Option.some.injEq, Prod.mk.injEq] at hc
    refine ⟨v i, ⟨rfl, ?_⟩, hc.1 ▸ h.idle⟩
    rw [hknown, hlook, ← hc.2]
  · simp only [hnumber, hf, Option.map_some, Option.some.injEq, Prod.mk.injEq] at hc
    refine ⟨v i, ⟨rfl, ?_⟩, hc.1 ▸ h.idle⟩
    rw [hknown, hlook, ← hc.2]

lemma learns_open {key : Path} (hname : key.name ∈ (own i).names)
    (hc : onLowest fs (.openFile key) = some (fs', r)) : Learns own v i (.openFile key) fs' r := by
  have hknown := h.known i _ hname
  rw [onLowest, onFiles] at hc
  rcases lookup_cases hn (hown.fits i _ hname) with ⟨hnumber, hlook⟩ | ⟨n, f, hnumber, -, -, hlook⟩
  all_goals
    simp only [hnumber, Option.some.injEq, Prod.mk.injEq] at hc
    refine ⟨v i, ⟨rfl, ?_⟩, hc.1 ▸ h.idle⟩
    rw [hknown, hlook, ← hc.2]

lemma learns_create {key : Path} (hname : key.name ∈ (own i).names) (hnone : v i key.name = none)
    (hc : onLowest fs (.create key) = some (fs', r)) : Learns own v i (.create key) fs' r := by
  obtain ⟨x, hx, hempty⟩ := h.free_slot hname hnone
  have hslot : fs.lowest < objectSlots := (Nat.sInf_le hempty).trans_lt hx
  have hlowest : fs.lowest ∈ {n | fs.file n = none} := Nat.sInf_mem ⟨x, hempty⟩
  have hfile : fs.file fs.lowest = none := hlowest
  rw [onLowest, onFiles, hfile, Option.isSome_none, if_neg Bool.false_ne_true, Option.some.injEq,
    Prod.mk.injEq] at hc
  refine ⟨_, ⟨fs.lowest, hc.2.symm, rfl⟩, ?_⟩
  rw [← hc.1]
  refine h.change hown hname (fun m hm => lookup_create hn hm hfile) ?_ fun w => ?_
  · have hpart := part_update File.blocks (v i) hname (some (fs.lowest, ⟨0, fun _ => none⟩))
    have hwithin := h.blocks.within i
    simp only [hnone, Option.elim_none, Option.elim_some, blocks_empty] at hpart
    omega
  · rw [total_create w hslot hfile, hnone, Option.elim_none, Option.elim_some, Nat.add_zero]

lemma learns_unlink {key : Path} (hname : key.name ∈ (own i).names)
    (hc : onLowest fs (.unlink key) = some (fs', r)) : Learns own v i (.unlink key) fs' r := by
  have hfits := hown.fits i _ hname
  have hknown := h.known i _ hname
  rw [onLowest, onFiles] at hc
  rcases lookup_cases hn hfits with ⟨hnumber, hlook⟩ | ⟨n, f, hnumber, hf, hslot, hlook⟩
  all_goals simp only [hnumber, Option.some.injEq, Prod.mk.injEq] at hc
  · refine ⟨v i, ⟨?_, hc.2.symm⟩, hc.1 ▸ h.idle⟩
    rw [← hlook, ← hknown, Function.update_eq_self]
  · refine ⟨_, ⟨rfl, hc.2.symm⟩, ?_⟩
    rw [← hc.1]
    have hpart := part_update File.blocks (v i) hname none
    have hwithin := h.blocks.within i
    refine h.change hown hname (fun m hm => lookup_remove hn hfits hm hnumber) ?_ fun w => ?_
    · rw [Option.elim_none] at hpart
      omega
    · have htotal := total_update w (fs.remove key.name n) (x := none) hslot rfl
      rw [hf] at htotal
      rw [hknown, hlook]
      exact htotal

lemma learns_rename {oldkey newkey : Path} (hold : oldkey.name ∈ (own i).names)
    (hnew : newkey.name ∈ (own i).names) (hnone : v i newkey.name = none)
    (hc : onLowest fs (.rename oldkey newkey) = some (fs', r)) :
    Learns own v i (.rename oldkey newkey) fs' r := by
  have hknown := h.known i _ hold
  rw [onLowest, onFiles] at hc
  rcases lookup_cases hn (hown.fits i _ hold) with ⟨hnumber, hlook⟩ | ⟨n, f, hnumber, hf, -, hlook⟩
  all_goals simp only [hnumber, Option.some.injEq, Prod.mk.injEq] at hc
  · refine ⟨v i, ?_, hc.1 ▸ h.idle⟩
    simp only [owned, hknown, hlook]
    exact ⟨trivial, hc.2.symm⟩
  · have hne : newkey.name ≠ oldkey.name := by
      intro heq
      rw [heq, hknown, hlook] at hnone
      cases hnone
    have htotal : ∀ w, Part.total w (own i).names (Function.update (Function.update (v i)
        oldkey.name none) newkey.name (some (n, f))) = (v i).total w (own i).names := by
      intro w
      have hfirst := part_update w (v i) hold none
      have hsecond := part_update w (Function.update (v i) oldkey.name none) hnew (some (n, f))
      rw [Function.update_of_ne hne, hnone] at hsecond
      rw [hknown, hlook] at hfirst
      simp only [Option.elim_none, Option.elim_some] at hfirst hsecond
      omega
    refine ⟨Function.update (Function.update (v i) oldkey.name none) newkey.name (some (n, f)),
      ?_, ?_⟩
    · simp only [owned, hknown, hlook]
      exact ⟨trivial, hc.2.symm⟩
    rw [← hc.1]
    refine h.step hown (fun m hm => ?_) (fun m _ hnot => ?_) ?_ fun w => ?_
    · rw [lookup_rename hnumber, hlook, Function.update_apply, Function.update_apply,
        h.known i m hm]
    · have hnotnew : m ≠ newkey.name := fun heq => hnot (heq ▸ hnew)
      have hnotold : m ≠ oldkey.name := fun heq => hnot (heq ▸ hold)
      rw [lookup_rename hnumber, if_neg hnotnew, if_neg hnotold]
    · rw [htotal]
      exact h.blocks.within i
    · rw [htotal]
      rfl

omit hown hn in
lemma learns_read {fh : ℤ} {size offset : ℕ}
    (hpre : (owned (own i)).pre (v i) (.read fh size offset))
    (hc : onLowest fs (.read fh size offset) = some (fs', r)) :
    Learns own v i (.read fh size offset) fs' r := by
  have hfile : ∀ name ∈ (own i).names, ∀ (n : ℕ) (f : File), v i name = some (n, f) →
      fh = n + 2 → fs' = fs ∧
        r = { ret := size, bytes := (List.range size).map fun i => f.byte (offset + i) } := by
    rintro name hname n f hv rfl
    rw [h.known i name hname, lookup_eq_some] at hv
    have hlow : ¬(n : ℤ) + 2 < 2 := by omega
    have hslot : ((n : ℤ) + 2 - 2).toNat = n := by omega
    simp only [onLowest, onFiles, if_neg hlow, hslot, hv.2, Option.map_some, Option.some.injEq,
      Prod.mk.injEq] at hc
    exact ⟨hc.1.symm, hc.2.symm⟩
  obtain ⟨name, hname, n, f, hv, hfh, -⟩ := hpre
  rw [(hfile name hname n f hv hfh).1]
  exact ⟨v i, ⟨rfl, fun m hm k g hg hfh => (hfile m hm k g hg hfh).2⟩, h.idle⟩

lemma learns_write {fh : ℤ} {buf : Memory} {size offset : ℕ}
    (hpre : (owned (own i)).pre (v i) (.write fh buf size offset))
    (hc : onLowest fs (.write fh buf size offset) = some (fs', r)) :
    Learns own v i (.write fh buf size offset) fs' r := by
  obtain ⟨name, hname, n, f, hv, rfl, -, -, hblock, hnone, hquota⟩ := hpre
  have hlook := h.known i name hname
  rw [hv] at hlook
  obtain ⟨hnumber, hf⟩ := lookup_eq_some.mp hlook.symm
  have hfits := hown.fits i name hname
  have hslot := (hn.there name hfits n hnumber).1
  have hlow : ¬(n : ℤ) + 2 < 2 := by omega
  have htoNat : ((n : ℤ) + 2 - 2).toNat = n := by omega
  simp only [onLowest, onFiles, if_neg hlow, htoNat, hf, Option.map_some, Option.some.injEq,
    Prod.mk.injEq] at hc
  refine ⟨Function.update (v i) name (some (n, f.fill buf size (offset / blockSize))),
    ⟨hc.2.symm, fun m hm k g hg hfh => ?_⟩, ?_⟩
  · -- a thread has no two names for one file
    obtain rfl : n = k := by omega
    rw [h.known i m hm, lookup_eq_some] at hg
    obtain rfl := hn.inj m name (hown.fits i m hm) hfits n hg.1 hnumber
    rw [hf, Option.some.injEq] at hg
    rw [hg.2]
  rw [← hc.1]
  refine h.change hown hname (fun m hm => lookup_write hn hfits hm hnumber) ?_ fun w => ?_
  · have hpart := part_update File.blocks (v i) hname
      (some (n, f.fill buf size (offset / blockSize)))
    simp only [hv, Option.elim_some, blocks_fill hblock hnone] at hpart
    omega
  · have htotal := total_update w (fs.write n f buf size (offset / blockSize)) hslot rfl
    rw [hf] at htotal
    rw [hv]
    exact htotal

/-- The result of a callback is what its thread may learn from it. -/
theorem Split.answer (hpre : (owned (own i)).pre (v i) c) (hc : onLowest fs c = some (fs', r)) :
    Learns own v i c fs' r := by
  cases c with
  | getattr key => exact learns_getattr h hown hn hpre hc
  | create key => exact learns_create h hown hn hpre.1 hpre.2 hc
  | unlink key => exact learns_unlink h hown hn hpre hc
  | rename oldkey newkey => exact learns_rename h hown hn hpre.1 hpre.2.1 hpre.2.2 hc
  | openFile key => exact learns_open h hown hn hpre hc
  | read fh size offset => exact learns_read h hpre hc
  | write fh buf size offset => exact learns_write h hown hn hpre hc
  | release fh =>
    cases hc
    exact ⟨v i, ⟨rfl, rfl⟩, h.idle⟩

end Answers

end OsAssignments.FileSystem
