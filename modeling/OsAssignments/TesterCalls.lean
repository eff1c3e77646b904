import OsAssignments.KeyValue
import OsAssignments.Tester

/-!
# Calls of the tester

What a thread of the tester may rely on while it keeps to its share of the names and of
the disk, and what the calls of `kvstore.c` do then: a value that was put is the value
that is read back, also under another name.
-/
namespace OsAssignments.Tester

open ByteMemory ObjectTable FileSystem Programs Interleaving

variable {ι : Type} {build : Build} {own : ι → Share}

section Specification

/-- A thread knows its files, and whether it holds `read_lock`. -/
abbrev View := Part × Bool

/-- The calls of a thread while nothing fails. -/
def spec (share : Share) : Spec Call Call.Answer View where
  pre v
    | .callback c => (owned share).pre v.1 c
    | .readFail | .readStop => True
    | .lockRead => v.2 = false
    | .unlockRead => v.2 = true
    | _ => False
  post v
    | .callback c, u, r => (owned share).post v.1 c u.1 r ∧ u.2 = v.2
    | .readFail, u, r => u = v ∧ r = (0 : ℤ)
    | .readStop, u, r => u = v ∧ r = false
    | .lockRead, u, _ => u = (v.1, true)
    | .unlockRead, u, _ => u = (v.1, false)
    | _, _, _ => False

variable [DecidableEq ι] [Fintype ι]

/-- The store holds the files that the threads know, nothing failed, and `read_lock` is held by
the thread that knows it. -/
structure Sound (build : Build) (own : ι → Share) (x : World ι) (v : ι → View) : Prop where
  files : ∃ fs, Holds build x.store fs ∧ Split own fs fun i => (v i).1
  fail : x.fail = 0
  error : x.error = none
  stop : x.stop = false
  lock : ∀ i, (v i).2 = true ↔ x.readLock = some i

omit [Fintype ι] in
lemma update_fst {v : ι → View} {i : ι} {u : View} :
    (fun j => (Function.update v i u j).1) = Function.update (fun j => (v j).1) i u.1 := by
  funext j
  rcases eq_or_ne j i with rfl | hj
  · rw [Function.update_self, Function.update_self]
  · rw [Function.update_of_ne hj, Function.update_of_ne hj]

/-- An allowed callback is served. -/
lemma Sound.callback {x : World ι} {v : ι → View} {i : ι} {c : Callback} (h : Sound build own x v)
    (hown : Apart own) (hpre : (owned (own i)).pre (v i).1 c) :
    ∃ s' r u, callback build x.store c = some (s', r) ∧ (owned (own i)).post (v i).1 c u r ∧
      Sound build own { x with store := s' } (Function.update v i (u, (v i).2)) := by
  obtain ⟨fs, hholds, hsplit⟩ := h.files
  have hnamed := hholds.wellNamed
  obtain ⟨s', fs', r, hc, hfiles, hholds'⟩ :=
    allowed_answered hholds (hsplit.allowed hown hnamed hpre)
  obtain ⟨u, hpost, hsplit'⟩ := hsplit.answer hown hnamed hpre hfiles
  refine ⟨s', r, u, hc, hpost, ⟨fs', hholds', ?_⟩, h.fail, h.error, h.stop, fun j => ?_⟩
  · rw [update_fst]
    exact hsplit'
  · rcases eq_or_ne j i with rfl | hj
    · rw [Function.update_self]
      exact h.lock j
    · rw [Function.update_of_ne hj]
      exact h.lock j

omit [Fintype ι] in
lemma update_lock {v : ι → View} {i j : ι} {b : Bool} :
    (Function.update v i ((v i).1, b) j).2 = if j = i then b else (v j).2 := by
  rw [Function.update_apply]
  split_ifs <;> rfl

/-- The lock changes hands. -/
lemma Sound.locked {x : World ι} {v : ι → View} {i : ι} {b : Bool} {lock : Option ι}
    (h : Sound build own x v)
    (hlock : ∀ j, (if j = i then b else (v j).2) = true ↔ lock = some j) :
    Sound build own { x with readLock := lock } (Function.update v i ((v i).1, b)) := by
  obtain ⟨fs, hholds, hsplit⟩ := h.files
  refine ⟨⟨fs, hholds, ?_⟩, h.fail, h.error, h.stop, fun j => ?_⟩
  · rw [update_fst, Function.update_eq_self_iff.mpr rfl]
    exact hsplit
  · rw [update_lock]
    exact hlock j

theorem serve_implements (hown : Apart own) :
    Implements (serve build) (fun i => spec (own i)) (Sound build own) fun v => v.2 = true where
  answer x v i c x' r h hpre hserve := by
    cases c with
    | callback c =>
      obtain ⟨s', r', u, hc, hpost, hsound⟩ := h.callback hown hpre
      rw [serve, hc, Option.map_some, Option.some.injEq, Prod.mk.injEq] at hserve
      obtain ⟨rfl, rfl⟩ := hserve
      exact ⟨(u, (v i).2), ⟨hpost, rfl⟩, hsound⟩
    | readFail =>
      cases hserve
      refine ⟨v i, ⟨rfl, h.fail⟩, ?_⟩
      rwa [Function.update_eq_self]
    | readStop =>
      cases hserve
      refine ⟨v i, ⟨rfl, h.stop⟩, ?_⟩
      rwa [Function.update_eq_self]
    | lockRead =>
      rw [serve] at hserve
      split_ifs at hserve with hfree
      cases hserve
      refine ⟨_, rfl, h.locked fun j => ?_⟩
      by_cases hj : j = i
      · rw [if_pos hj, hj]
        exact iff_of_true rfl rfl
      · rw [if_neg hj, h.lock j, hfree]
        exact iff_of_false (Option.some_ne_none j).symm fun heq => hj (Option.some.inj heq).symm
    | unlockRead =>
      cases hserve
      have hheld := (h.lock i).mp hpre
      refine ⟨_, rfl, h.locked fun j => ?_⟩
      by_cases hj : j = i
      · rw [if_pos hj]
        exact iff_of_false Bool.false_ne_true (Option.some_ne_none j).symm
      · rw [if_neg hj, h.lock j, hheld]
        exact iff_of_false (fun heq => hj (Option.some.inj heq).symm) (Option.some_ne_none j).symm
    | _ => exact hpre.elim
  waits x v i c h hpre hserve := by
    cases c with
    | callback c =>
      obtain ⟨s', r, u, hc, -, -⟩ := h.callback hown hpre
      rw [serve, hc] at hserve
      cases hserve
    | lockRead =>
      rw [serve] at hserve
      split_ifs at hserve with hfree
      obtain ⟨j, hj⟩ := Option.ne_none_iff_exists'.mp hfree
      exact ⟨j, (h.lock j).mpr hj⟩
    | readFail | readStop | unlockRead => cases hserve
    | _ => exact hpre.elim
  goes x v i c h hpre hbusy hserve := by
    cases c with
    | callback c =>
      obtain ⟨s', r, u, hc, -, -⟩ := h.callback hown hpre
      rw [serve, hc] at hserve
      cases hserve
    | lockRead =>
      rw [show (v i).2 = false from hpre] at hbusy
      cases hbusy
    | readFail | readStop | unlockRead => cases hserve
    | _ => exact hpre.elim

end Specification

section Contents

variable {val : Memory} {size k p : ℕ}

/-- The file of a value of which `k` pages were written. -/
def filled (val : Memory) (size k : ℕ) : File where
  size := min (blockSize * k) size
  page j := if j < k then some (bufferPage (fun x => val (blockSize * j + x))
    (min blockSize (size - blockSize * j))) else none

lemma filled_zero (val : Memory) (size : ℕ) : filled val size 0 = ⟨0, fun _ => none⟩ := by
  simp [filled]

lemma filled_page_none (hk : p ≤ k) : (filled val size p).page k = none := if_neg (by omega)

lemma filled_page_isSome : ((filled val size p).page k).isSome ↔ k < p := by
  rw [filled]
  by_cases hk : k < p <;> simp [hk]

lemma filled_fill (hk : k < totalBlocks size) :
    (filled val size k).fill (fun x => val (blockSize * k + x))
      (min blockSize (size - blockSize * k)) k = filled val size (k + 1) := by
  rw [lt_totalBlocks] at hk
  rw [File.fill, filled, filled, File.mk.injEq]
  constructor
  · show min (4096 * k) size + min 4096 (size - 4096 * k) = min (4096 * (k + 1)) size
    have hlt : 4096 * k < size := hk
    omega
  · funext j
    rcases eq_or_ne j k with rfl | hj
    · rw [Function.update_self, if_pos (Nat.lt_succ_self j)]
    · rw [Function.update_of_ne hj]
      have hiff : j < k ↔ j < k + 1 := by omega
      simp only [hiff]

/-- The bytes of a value are the bytes of its file. -/
lemma filled_byte {x : ℕ} (hx : x < size) :
    (filled val size (totalBlocks size)).byte x = val x := by
  have hin : x / 4096 < totalBlocks size := by
    rw [lt_totalBlocks]
    show 4096 * (x / 4096) < size
    omega
  have hplace : 4096 * (x / 4096) + x % 4096 = x := by omega
  have hcount : x % 4096 < min 4096 (size - 4096 * (x / 4096)) := by omega
  rw [File.byte, filled]
  show (if x / 4096 < totalBlocks size then _ else _ : Option Block).getD _ _ = _
  rw [if_pos hin, Option.getD_some, bufferPage]
  show (if x % 4096 < min 4096 (size - 4096 * (x / 4096)) then
    val (4096 * (x / 4096) + x % 4096) else 0) = val x
  rw [if_pos hcount, hplace]

lemma filled_blocks (hp : p ≤ 4100) : (filled val size p).blocks ≤ KeyValue.blocksNeeded p := by
  have hpages : (filled val size p).pages = Finset.range p := by
    ext j
    rw [mem_pages, filled_page_isSome, Finset.mem_range]
    omega
  have htables : (filled val size p).tables ⊆ Finset.range ((p - 4 + 1023) / 1024) := by
    intro l hl
    obtain ⟨-, e, -, hsome⟩ := mem_tables.mp hl
    rw [filled_page_isSome] at hsome
    rw [Finset.mem_range]
    omega
  have hcard := Finset.card_le_card htables
  rw [Finset.card_range] at hcard
  rw [File.blocks, hpages, Finset.card_range, KeyValue.blocksNeeded]
  omega

lemma blocksNeeded_mono (hkp : k ≤ p) : KeyValue.blocksNeeded k ≤ KeyValue.blocksNeeded p := by
  rw [KeyValue.blocksNeeded, KeyValue.blocksNeeded]
  omega

lemma filled_hasTable {j : ℕ} (hj : 4 + 1024 * j < p) : (filled val size p).HasTable j :=
  ⟨0, by norm_num, filled_page_isSome.mpr hj⟩

end Contents

section Routines

variable {sh : Share} {v : View} {name : CString} {n m k size : ℕ} {val : Memory}
  {kernel : Kernel}

/-- A callback, and what follows its result. -/
lemma meets_request {β : Type} {R : View → β → Prop} {c : Callback} {f : Result → Code β}
    (hn : 0 < n) (hpre : (owned sh).pre v.1 c)
    (hf : ∀ u r, (owned sh).post v.1 c u r → Meets (spec sh) R (f r) (n - 1) (u, v.2)) :
    Meets (spec sh) R (request c >>= f) n v := by
  refine meets_ask (c := Call.callback c) hn hpre fun u r hpost => ?_
  obtain ⟨hpost, hlock⟩ := hpost
  have hu : u = (u.1, v.2) := Prod.ext rfl hlock
  rw [hu]
  exact hf u.1 r hpost

/-- Lookups change nothing, and all tell whether the name has a file. -/
lemma meets_lookUp (hname : name ∈ sh.names) (looks : ℕ) :
    Meets (spec sh) (fun u rs => u = v ∧ ∀ r ∈ rs, r.ret < 0 ↔ v.1 name = none)
      (lookUp ⟨name⟩ looks) looks v := by
  induction looks with
  | zero => exact ⟨rfl, fun r hr => absurd hr List.not_mem_nil⟩
  | succ looks ih =>
    refine meets_request (Nat.succ_pos looks) hname fun u r hpost => ?_
    obtain ⟨rfl, hr⟩ := hpost
    refine meets_bind le_rfl ih fun w rs hw => ?_
    obtain ⟨rfl, hrs⟩ := hw
    refine ⟨rfl, fun r' hr' => ?_⟩
    rcases List.mem_cons.mp hr' with rfl | hr'
    · rw [hr]
      cases w.1 name with
      | none => exact iff_of_true (by decide : -enoent < 0) rfl
      | some x => exact iff_of_false (by decide : ¬(0 : ℤ) < 0) (Option.some_ne_none x)
    · exact hrs r' hr'

lemma missed_eq_false {rs : List Result} {x : ℕ × File} (hv : v.1 name = some x)
    (hrs : ∀ r ∈ rs, r.ret < 0 ↔ v.1 name = none) : missed rs = false := by
  rw [missed, List.any_eq_false]
  intro r hr
  rw [decide_eq_true_eq, hrs r hr, hv]
  exact Option.some_ne_none x

lemma found_eq_false {rs : List Result} (hv : v.1 name = none)
    (hrs : ∀ r ∈ rs, r.ret < 0 ↔ v.1 name = none) : found rs = false := by
  rw [found, List.any_eq_false]
  intro r hr
  rw [decide_eq_true_eq, not_le]
  exact (hrs r hr).mpr hv

/-- `lookup_key` finds the size. -/
lemma meets_lookupKey (hname : name ∈ sh.names) :
    Meets (spec sh) (fun u r => u = v ∧ r = (v.1 name).elim (-1) fun x => (x.2.size : ℤ))
      (lookupKey kernel ⟨name⟩) (kernel.looks .stat + 1) v := by
  refine meets_bind (by omega) (meets_lookUp hname _) fun u rs hu => ?_
  obtain ⟨rfl, hrs⟩ := hu
  split_ifs with hmissed
  · obtain ⟨r, hr, hret⟩ := List.any_eq_true.mp hmissed
    have hnone : u.1 name = none := (hrs r hr).mp (of_decide_eq_true hret)
    exact ⟨rfl, by rw [hnone]; rfl⟩
  · refine meets_request (by omega) hname fun w r hpost => ?_
    obtain ⟨rfl, rfl⟩ := hpost
    refine ⟨rfl, ?_⟩
    cases u.1 name with
    | none => rfl
    | some x => rfl

/-- `delete_key` leaves no file. -/
lemma meets_deleteKey {x : ℕ × File} (hname : name ∈ sh.names) (hv : v.1 name = some x) :
    Meets (spec sh) (fun u _ => u = (Function.update v.1 name none, v.2))
      (deleteKey kernel ⟨name⟩) (kernel.looks .unlink + 1) v := by
  refine meets_bind (by omega) (meets_lookUp hname _) fun u rs hu => ?_
  obtain ⟨rfl, hrs⟩ := hu
  rw [missed_eq_false hv hrs, if_neg Bool.false_ne_true]
  refine meets_request (by omega) hname fun w r hpost => ?_
  obtain ⟨rfl, rfl⟩ := hpost
  exact rfl

/-- A name that has no file, or one that is not empty. -/
def Cleanable (v : View) (name : CString) : Prop := ∀ n f, v.1 name = some (n, f) → 0 < f.size

/-- A name lost its file, and nothing else changed. -/
structure Cleared (v u : View) (name : CString) : Prop where
  gone : u.1 name = none
  rest : ∀ m, m ≠ name → u.1 m = v.1 m
  lock : u.2 = v.2

lemma meets_cleanUp (hname : name ∈ sh.names) (hleft : Cleanable v name) :
    Meets (spec sh) (fun u _ => Cleared v u name) (cleanUp kernel name)
      (kernel.looks .stat + kernel.looks .unlink + 2) v := by
  refine meets_bind (by omega) (meets_lookupKey hname) fun u r hu => ?_
  obtain ⟨rfl, rfl⟩ := hu
  cases hv : u.1 name with
  | none =>
    rw [Option.elim_none, if_neg (by norm_num)]
    exact ⟨hv, fun _ _ => rfl, rfl⟩
  | some x =>
    have hpos := hleft x.1 x.2 hv
    rw [Option.elim_some, if_pos (by exact_mod_cast hpos)]
    refine meets_bind (by omega) (meets_deleteKey hname hv) fun w _ hw => ?_
    subst hw
    exact ⟨Function.update_self .., fun m hm => Function.update_of_ne hm .., rfl⟩

lemma meets_stopped : Meets (spec sh) (fun u r => u = v ∧ r = false) stopped 2 v := by
  refine meets_ask (by norm_num) trivial fun u r hpost => ?_
  obtain ⟨rfl, rfl⟩ := hpost
  exact ⟨by norm_num, trivial, fun _ _ hpost => hpost⟩

/-- The view of a thread with `k` pages of its value in the file of a name. -/
abbrev wrote (v : View) (name : CString) (n : ℕ) (val : Memory) (size k : ℕ) : View :=
  (Function.update v.1 name (some (n, filled val size k)), v.2)

/-- The pages of a value: where each starts, and how many of its bytes it takes. -/
def valuePages (size : ℕ) : List (ℕ × ℕ) :=
  (List.range (totalBlocks size)).map fun k =>
    (blockSize * k, min blockSize (size - blockSize * k))

/-- Pages are written while there is room for the value. -/
lemma meets_writePieces (hname : name ∈ sh.names) (hblocks : totalBlocks size ≤ 4100)
    (hroom : ∀ k ≤ totalBlocks size,
      (wrote v name n val size k).1.total File.blocks sh.names ≤ sh.quota) (pages : ℕ)
    (hpages : k + pages = totalBlocks size) :
    Meets (spec sh) (fun u r => u = wrote v name n val size (totalBlocks size) ∧ r = (size : ℤ))
      (writePieces (n + 2) val ((List.range' k pages).map fun k =>
        (blockSize * k, min blockSize (size - blockSize * k))) (min (blockSize * k) size)) pages
      (wrote v name n val size k) := by
  induction pages generalizing k with
  | zero =>
    have hall : size ≤ 4096 * k := totalBlocks_le.mp (by omega)
    have hdone : min (4096 * k) size = size := min_eq_right hall
    exact ⟨by rw [← hpages]; rfl, congrArg Nat.cast hdone⟩
  | succ pages ih =>
    have hk : k < totalBlocks size := by omega
    have hdiv : blockSize * k / blockSize = k := Nat.mul_div_cancel_left k (by norm_num)
    have hself : (wrote v name n val size k).1 name = some (n, filled val size k) :=
      Function.update_self _ _ _
    have hnone : (filled val size k).page k = none := filled_page_none le_rfl
    have hcost : (filled val size (k + 1)).blocks =
        (filled val size k).blocks + (filled val size k).cost k := by
      rw [← filled_fill hk]
      exact blocks_fill (by omega) hnone
    have htotal : (wrote v name n val size (k + 1)).1.total File.blocks sh.names +
        (filled val size k).blocks = (wrote v name n val size k).1.total File.blocks sh.names +
          (filled val size (k + 1)).blocks := by
      have hpart := part_update File.blocks (wrote v name n val size k).1 hname
        (some (n, filled val size (k + 1)))
      simpa only [Function.update_self, Function.update_idem, Option.elim_some] using hpart
    have hpre : (owned sh).pre (wrote v name n val size k).1 (.write (n + 2)
        (fun x => val (blockSize * k + x)) (min blockSize (size - blockSize * k))
        (blockSize * k)) := by
      have hquota := hroom (k + 1) hk
      refine ⟨name, hname, n, _, hself, rfl, dvd_mul_right _ _, min_le_left _ _, ?_⟩
      rw [hdiv]
      exact ⟨by omega, hnone, by omega⟩
    refine meets_request (by omega) hpre fun u r hpost => ?_
    obtain ⟨rfl, hu⟩ := hpost
    have hwritten := hu name hname n _ hself rfl
    rw [hdiv, filled_fill hk, Function.update_idem] at hwritten
    have hret : ¬((min blockSize (size - blockSize * k) : ℕ) : ℤ) < 0 := by omega
    have hdone : min (blockSize * k) size + min blockSize (size - blockSize * k) =
        min (blockSize * (k + 1)) size := by
      have hlt : 4096 * k < size := lt_totalBlocks.mp hk
      show min (4096 * k) size + min 4096 (size - 4096 * k) = min (4096 * (k + 1)) size
      omega
    rw [hwritten, if_neg hret, hdone]
    exact ih (by omega)

/-- `put_key` writes the whole value to a new file. -/
lemma meets_putKey (hpieces : kernel.pieces size = valuePages size) (hname : name ∈ sh.names)
    (hblocks : totalBlocks size ≤ 4100) (hnone : v.1 name = none)
    (hroom : ∀ n, ∀ k ≤ totalBlocks size,
      (wrote v name n val size k).1.total File.blocks sh.names ≤ sh.quota) :
    Meets (spec sh) (fun u r => r = 0 ∧ ∃ n, u = wrote v name n val size (totalBlocks size))
      (putKey kernel ⟨name⟩ val size)
      (kernel.looks .create + kernel.looks .created + totalBlocks size + 2) v := by
  refine meets_bind (by omega) (meets_lookUp hname _) fun u rs hu => ?_
  obtain ⟨rfl, hrs⟩ := hu
  rw [found_eq_false hnone hrs, if_neg Bool.false_ne_true]
  have hcreate : (owned sh).pre u.1 (.create ⟨name⟩) := ⟨hname, hnone⟩
  refine meets_request (by omega) hcreate fun w r hpost => ?_
  obtain ⟨n, rfl, rfl⟩ := hpost
  rw [if_neg (show ¬(0 : ℤ) < 0 by decide)]
  -- the new file is looked up, and then written
  refine meets_bind (by omega) (meets_lookUp hname _) fun w rs hw => ?_
  obtain ⟨rfl, hrs'⟩ := hw
  rw [missed_eq_false (Function.update_self ..) hrs', if_neg Bool.false_ne_true]
  have hempty : (Function.update u.1 name (some (n, ⟨0, fun _ => none⟩)), u.2) =
      wrote u name n val size 0 := by rw [← filled_zero val size]
  have hwrite := meets_writePieces (v := u) (k := 0) hname hblocks (hroom n) (totalBlocks size)
    (Nat.zero_add _)
  rw [← hempty, ← List.range_eq_range', Nat.mul_zero, Nat.zero_min] at hwrite
  rw [hpieces]
  refine meets_bind (by omega) hwrite fun w r hw => ?_
  obtain ⟨rfl, rfl⟩ := hw
  have hret : ¬(size : ℤ) < 0 := by omega
  rw [if_neg hret]
  refine meets_request (by omega) trivial fun w r hpost => ?_
  obtain ⟨rfl, -⟩ := hpost
  exact ⟨rfl, n, rfl⟩

/-- `rename_key` moves a file to a name that has none. -/
lemma meets_renameKey {new : CString} {x : ℕ × File} (hname : name ∈ sh.names)
    (hnew : new ∈ sh.names) (hx : v.1 name = some x) (hnone : v.1 new = none) :
    Meets (spec sh) (fun u r => r = 0 ∧ u.1 new = some x ∧ u.1 name = none ∧ u.2 = v.2)
      (renameKey kernel ⟨name⟩ ⟨new⟩) (2 * kernel.looks .rename + 1) v := by
  refine meets_bind (by omega) (meets_lookUp hname _) fun u rs hu => ?_
  obtain ⟨rfl, hrs⟩ := hu
  rw [missed_eq_false hx hrs, if_neg Bool.false_ne_true]
  refine meets_bind (by omega) (meets_lookUp hnew _) fun w rs hw => ?_
  obtain ⟨rfl, -⟩ := hw
  have hpre : (owned sh).pre w.1 (.rename ⟨name⟩ ⟨new⟩) := ⟨hname, hnew, hnone⟩
  have hne : name ≠ new := by
    rintro rfl
    rw [hx] at hnone
    cases hnone
  refine meets_request (by omega) hpre fun u r hpost => ?_
  simp only [owned, hx] at hpost
  obtain ⟨rfl, rfl⟩ := hpost
  refine ⟨rfl, Function.update_self .., ?_, rfl⟩
  simp only [Function.update_of_ne hne, Function.update_self]

/-- The first bytes of a buffer are those of the value. -/
def Agrees (val m : Memory) (count : ℕ) : Prop := ∀ x < count, m x = val x

/-- Pages are read until the whole value is there. -/
lemma meets_readPages {ahead : ℕ → ℕ} (hahead : ∀ k, 0 < ahead k) (hname : name ∈ sh.names)
    (hblocks : totalBlocks size ≤ 4100)
    (hv : v.1 name = some (n, filled val size (totalBlocks size))) (fuel : ℕ) {m : Memory}
    (hfuel : totalBlocks size ≤ k + fuel) (hm : Agrees val m (min (blockSize * k) size)) :
    Meets (spec sh) (fun u r => u = v ∧ r.1 = (size : ℤ) ∧ Agrees val r.2 size)
      (readPages ahead (n + 2) size fuel k m) fuel v := by
  have hend : ∀ {k m}, totalBlocks size ≤ k → Agrees val m (min (blockSize * k) size) →
      Agrees val m size := fun {k m} hle hm x hx => by
    have hsize : size ≤ 4096 * k := totalBlocks_le.mp hle
    exact hm x (show x < min (4096 * k) size by omega)
  induction fuel generalizing k m with
  | zero => exact ⟨rfl, rfl, hend hfuel hm⟩
  | succ fuel ih =>
    rw [readPages]
    by_cases hle : totalBlocks size ≤ k
    · rw [if_pos hle]
      exact ⟨rfl, rfl, hend hle hm⟩
    rw [if_neg hle]
    have hpos := hahead k
    obtain ⟨pages, hpages⟩ : ∃ pages, pages = min (ahead k) (totalBlocks size - k) := ⟨_, rfl⟩
    simp only [← hpages]
    have hdiv : blockSize * k / blockSize = k := Nat.mul_div_cancel_left k (by norm_num)
    have hcount : totalBlocks (blockSize * pages) = pages := by
      refine le_antisymm (totalBlocks_le.mpr le_rfl) (not_lt.mp fun hlt => ?_)
      have hmore : blockSize * pages ≤ 4096 * totalBlocks (blockSize * pages) :=
        totalBlocks_le.mp le_rfl
      have hmul : 4096 * pages ≤ 4096 * totalBlocks (blockSize * pages) := hmore
      omega
    have hpre : (owned sh).pre v.1 (.read (n + 2) (blockSize * pages) (blockSize * k)) := by
      refine ⟨name, hname, n, _, hv, rfl, dvd_mul_right _ _, ?_⟩
      rw [hdiv, hcount]
      refine ⟨fun i hi => mem_pages.mpr ⟨by omega, filled_page_isSome.mpr (by omega)⟩,
        fun j _ hlt => filled_hasTable (by omega)⟩
    refine meets_request (by omega) hpre fun u r hpost => ?_
    obtain ⟨rfl, hr⟩ := hpost
    have hread := hr name hname n _ hv rfl
    have hret : ¬((blockSize * pages : ℕ) : ℤ) < 0 := by omega
    rw [hread, if_neg hret]
    refine ih (by omega) fun x hx => ?_
    have hlt : x < min (4096 * (k + pages)) size := hx
    by_cases hold : x < blockSize * k
    · rw [storeBytes_of_not_mem (Or.inl hold)]
      exact hm x (lt_min hold (by omega))
    · obtain ⟨i, rfl⟩ : ∃ i, x = blockSize * k + i := ⟨x - blockSize * k, by omega⟩
      have hin : i < min (4096 * pages) (size - 4096 * k) := by
        have hlt' : 4096 * k + i < min (4096 * (k + pages)) size := hlt
        omega
      have hbyte : i < blockSize * pages := lt_of_lt_of_le hin (min_le_left _ _)
      rw [storeBytes_add hin, List.getD_eq_getElem?_getD, List.getElem?_map,
        List.getElem?_range hbyte]
      exact filled_byte (lt_of_lt_of_le hlt (min_le_right _ _))

/-- `get_key` reads the value back. -/
lemma meets_getKey (hahead : ∀ k, 0 < kernel.ahead k) (hname : name ∈ sh.names)
    (hblocks : totalBlocks size ≤ 4100)
    (hv : v.1 name = some (n, filled val size (totalBlocks size))) (m : Memory) :
    Meets (spec sh) (fun u r => u = v ∧ r.1 = 0 ∧ Agrees val r.2 size)
      (getKey kernel ⟨name⟩ m) (kernel.looks .openFile + totalBlocks size + 3) v := by
  have hsize : (filled val size (totalBlocks size)).size = size :=
    min_eq_right (totalBlocks_le.mp le_rfl)
  refine meets_bind (by omega) (meets_lookUp hname _) fun u rs hu => ?_
  obtain ⟨rfl, hrs⟩ := hu
  rw [missed_eq_false hv hrs, if_neg Bool.false_ne_true]
  have hopen : (owned sh).pre u.1 (.openFile ⟨name⟩) := hname
  refine meets_request (by omega) hopen fun w r hpost => ?_
  obtain ⟨rfl, rfl⟩ := hpost
  simp only [hv]
  rw [if_neg (show ¬(0 : ℤ) < 0 by decide)]
  have hstat : (owned sh).pre u.1 (.getattr ⟨name⟩) := hname
  refine meets_request (by omega) hstat fun u r hpost => ?_
  obtain ⟨rfl, rfl⟩ := hpost
  simp only [hv]
  rw [if_neg (show ¬(0 : ℤ) < 0 by decide)]
  have hst : Tester.size { ret := 0, stat := some ((filled val size (totalBlocks size)).stat n) } =
      (size : ℤ) := congrArg Nat.cast hsize
  have htotal : (min (if (size : ℤ) < 4096 then 4096 else (size : ℤ)) size).toNat = size := by
    split_ifs <;> omega
  simp only [hst, htotal]
  refine meets_bind (by omega) (meets_readPages hahead hname hblocks hv (totalBlocks size)
    (Nat.le_add_left _ _) fun x hx => ?_) fun u r hu => ?_
  · exact absurd hx (by simp)
  obtain ⟨rfl, hret, hagrees⟩ := hu
  rw [hret, if_neg (show ¬(size : ℤ) < 0 by omega)]
  refine meets_request (by omega) trivial fun u r hpost => ?_
  obtain ⟨rfl, -⟩ := hpost
  exact ⟨rfl, rfl, hagrees⟩

end Routines

end OsAssignments.Tester
