import OsAssignments.TesterCalls

/-!
# Runs of the tester

However the callbacks of its threads follow each other, the tester succeeds: every thread
reads back what it put, none is stopped by a failure or waits for ever, and the number of
calls is bounded by the constants.
-/
namespace OsAssignments.Tester

open ByteMemory ObjectTable FileSystem Programs Interleaving

variable {ι : Type} {build : Build}

section Rounds

/-- The share of a thread: its two names, and a number of blocks. -/
def share (quota num : ℕ) : Share := ⟨{key num, keyp num}, quota⟩

lemma key_mem (quota num : ℕ) : key num ∈ (share quota num).names := Finset.mem_insert_self ..

lemma keyp_mem (quota num : ℕ) : keyp num ∈ (share quota num).names :=
  Finset.mem_insert_of_mem (Finset.mem_singleton_self _)

/-- Threads with different numbers have different names. -/
lemma shares_apart {num : ι → ℕ} (quota : ℕ) (hinj : Function.Injective num)
    (hnum : ∀ i, num i < 2 ^ 31) : Apart fun i => share quota (num i) where
  apart i j name hi hj := by
    rw [share, Finset.mem_insert, Finset.mem_singleton] at hi hj
    rcases hi with rfl | rfl <;> rcases hj with hj | hj
    · exact hinj (key_injective hj)
    · exact absurd hj (key_ne_keyp _ _)
    · exact absurd hj.symm (key_ne_keyp _ _)
    · exact hinj (keyp_injective hj)
  fits i name hi := by
    rw [share, Finset.mem_insert, Finset.mem_singleton] at hi
    rcases hi with rfl | rfl
    · exact fits_key (hnum i)
    · exact fits_keyp (hnum i)
  root i name hi := by
    rw [share, Finset.mem_insert, Finset.mem_singleton] at hi
    rcases hi with rfl | rfl <;> simp [Path.IsRoot, key, keyp, testfile, new]

/-- What the constants must satisfy: there is a value, it fits into an object, the kernel writes
it page by page and asks for something at each read, and threads are numbered apart. -/
structure Valid (cfg : Config ι) : Prop where
  size : 0 < cfg.size
  blocks : totalBlocks cfg.size ≤ 4100
  pagewise : cfg.kernel.pieces cfg.size = valuePages cfg.size
  ahead : ∀ k, 0 < cfg.kernel.ahead k
  inj : Function.Injective cfg.num
  num : ∀ i, cfg.num i < 2 ^ 31

/-- What a thread knows between two rounds: nothing is in the way of the next one, and after the
first round the value is stored. -/
structure Between (cfg : Config ι) (i : ι) (left : ℕ) (v : View) : Prop where
  lock : v.2 = false
  old : Cleanable v (key (cfg.num i))
  new : Cleanable v (keyp (cfg.num i))
  stored : left < cfg.runs → ∃ n, v.1 (keyp (cfg.num i)) =
    some (n, filled (cfg.value i) cfg.size (totalBlocks cfg.size))

variable {cfg : Config ι} {i : ι} {quota n left : ℕ} {v : View}

lemma stringOf_congr {size : ℕ} {m m' : Memory} (h : Agrees m m' size) :
    stringOf size m = stringOf size m' := by
  have hmap : (List.range size).map m = (List.range size).map m' :=
    List.map_congr_left fun x hx => (h x (List.mem_range.mp hx)).symm
  rw [stringOf, stringOf, hmap]

/-- The most calls of one of the reads of a thread, and of what it does before them. -/
def Config.readCalls (cfg : Config ι) : ℕ :=
  cfg.kernel.looks .openFile + totalBlocks cfg.size + 7

def Config.writeCalls (cfg : Config ι) : ℕ :=
  2 * (cfg.kernel.looks .stat + cfg.kernel.looks .unlink + cfg.kernel.looks .rename) +
    cfg.kernel.looks .create + cfg.kernel.looks .created + totalBlocks cfg.size + 9

/-- The value that a thread put is the value it gets. -/
lemma meets_readRound (hcfg : Valid cfg) (hlock : v.2 = false)
    (hv : v.1 (keyp (cfg.num i)) =
      some (n, filled (cfg.value i) cfg.size (totalBlocks cfg.size))) (m : Memory) :
    Meets (spec (share quota (cfg.num i))) (fun u x => x.1 = false ∧ u = v) (readRound cfg i m)
      cfg.readCalls v := by
  unfold Config.readCalls
  refine meets_bind (by omega) meets_stopped fun u r hu => ?_
  obtain ⟨rfl, rfl⟩ := hu
  rw [if_neg Bool.false_ne_true]
  refine meets_ask (by omega) hlock fun w r hw => ?_
  obtain rfl : w = (u.1, true) := hw
  have hget := meets_getKey (v := (u.1, true)) hcfg.ahead (keyp_mem quota _) hcfg.blocks hv m
  refine meets_bind (by omega) hget fun w r hw => ?_
  obtain ⟨rfl, hret, hagrees⟩ := hw
  refine meets_ask (by omega) rfl fun w _ hw => ?_
  obtain rfl : w = (u.1, false) := hw
  rw [hret, if_neg (by norm_num), stringOf_congr hagrees, if_neg (by simp)]
  exact ⟨rfl, Prod.ext rfl hlock.symm⟩

/-- All the reads of a round. -/
lemma meets_reads (hcfg : Valid cfg) (hlock : v.2 = false)
    (hv : v.1 (keyp (cfg.num i)) =
      some (n, filled (cfg.value i) cfg.size (totalBlocks cfg.size))) (m : Memory) :
    Meets (spec (share quota (cfg.num i))) (fun u _ => u = v)
      (Program.rounds (readRound cfg i) cfg.rdRuns m) (cfg.rdRuns * cfg.readCalls) v := by
  refine meets_rounds (I := fun _ u _ => u = v) ?_ cfg.rdRuns rfl
  rintro - u b rfl
  exact meets_readRound hcfg hlock hv b

lemma Valid.filled_pos (hcfg : Valid cfg) {val : Memory} :
    0 < (filled val cfg.size (totalBlocks cfg.size)).size := by
  have hpos := hcfg.size
  have hall : cfg.size ≤ blockSize * totalBlocks cfg.size := totalBlocks_le.mp le_rfl
  exact lt_min (hpos.trans_le hall) hpos

/-- There is room for the value of a thread without another file. -/
lemma room_of_none (hcfg : Valid cfg)
    (hquota : KeyValue.blocksNeeded (totalBlocks cfg.size) ≤ quota)
    (hnone : v.1 (keyp (cfg.num i)) = none) {k : ℕ} (hk : k ≤ totalBlocks cfg.size) :
    (wrote v (key (cfg.num i)) n (cfg.value i) cfg.size k).1.total File.blocks
      (share quota (cfg.num i)).names ≤ (share quota (cfg.num i)).quota := by
  have hne := key_ne_keyp (cfg.num i) (cfg.num i)
  have hblocks : (filled (cfg.value i) cfg.size k).blocks ≤
      KeyValue.blocksNeeded (totalBlocks cfg.size) :=
    (filled_blocks (hk.trans hcfg.blocks)).trans (blocksNeeded_mono hk)
  simp only [share, Part.total, Finset.sum_pair hne, Function.update_self,
    Function.update_of_ne hne.symm, hnone, Option.elim_some, Option.elim_none, Nat.add_zero]
  exact hblocks.trans hquota

/-- A round puts the value, renames it and reads it back. -/
lemma meets_testRound (hcfg : Valid cfg)
    (hquota : KeyValue.blocksNeeded (totalBlocks cfg.size) ≤ quota)
    (hv : Between cfg i (left + 1) v) (m : Memory) :
    Meets (spec (share quota (cfg.num i))) (fun u x => x.1 = false ∧ Between cfg i left u)
      (testRound cfg i m) (cfg.writeCalls + cfg.rdRuns * cfg.readCalls) v := by
  unfold Config.writeCalls
  have hne := key_ne_keyp (cfg.num i) (cfg.num i)
  have hold := key_mem quota (cfg.num i)
  have hnew := keyp_mem quota (cfg.num i)
  refine meets_bind (by omega) meets_stopped fun u r hu => ?_
  obtain ⟨rfl, rfl⟩ := hu
  rw [if_neg Bool.false_ne_true]
  -- what earlier rounds left is removed
  refine meets_bind (by omega) (meets_cleanUp hold hv.old) fun w _ hw => ?_
  have hclean : Cleanable w (keyp (cfg.num i)) := fun n f hf =>
    hv.new n f (hw.rest _ hne.symm ▸ hf)
  refine meets_bind (by omega) (meets_cleanUp hnew hclean) fun x _ hx => ?_
  have hxold : x.1 (key (cfg.num i)) = none := (hx.rest _ hne).trans hw.gone
  -- the value is put under the first name and moved to the second
  have hroom := fun n k => room_of_none (v := x) (n := n) (k := k) hcfg hquota hx.gone
  refine meets_bind (by omega) (meets_putKey hcfg.pagewise hold hcfg.blocks hxold
    hroom) fun y r hy => ?_
  obtain ⟨rfl, n, rfl⟩ := hy
  rw [if_neg (show ¬(0 : ℤ) < 0 by decide)]
  have hput : (wrote x (key (cfg.num i)) n (cfg.value i) cfg.size (totalBlocks cfg.size)).1
      (key (cfg.num i)) = some (n, filled (cfg.value i) cfg.size (totalBlocks cfg.size)) :=
    Function.update_self ..
  have hfree : (wrote x (key (cfg.num i)) n (cfg.value i) cfg.size (totalBlocks cfg.size)).1
      (keyp (cfg.num i)) = none := by
    simp only [Function.update_of_ne hne.symm, hx.gone]
  refine meets_bind (by omega) (meets_renameKey hold hnew hput hfree) fun z r hz => ?_
  obtain ⟨rfl, hznew, hzold, hzlock⟩ := hz
  rw [if_neg (show ¬(0 : ℤ) < 0 by decide)]
  -- and read back from there
  have hlock : z.2 = false := hzlock.trans (hx.lock.trans (hw.lock.trans hv.lock))
  refine meets_bind (by omega) (meets_reads hcfg hlock hznew m) fun u b hu => ?_
  subst hu
  refine ⟨rfl, hlock, fun k f hf => ?_, fun k f hf => ?_, fun _ => ⟨n, hznew⟩⟩
  · rw [hzold] at hf
    cases hf
  · rw [hznew, Option.some.injEq, Prod.mk.injEq] at hf
    rw [← hf.2]
    exact hcfg.filled_pos

end Rounds

section Runs

/-- The blocks that a value takes. -/
def Config.need (cfg : Config ι) : ℕ := KeyValue.blocksNeeded (totalBlocks cfg.size)

/-- The most calls of a thread. -/
def Config.calls (cfg : Config ι) : ℕ :=
  cfg.runs * (cfg.writeCalls + cfg.rdRuns * cfg.readCalls)

def Config.share (cfg : Config ι) (i : ι) : Share := Tester.share cfg.need (cfg.num i)

variable [Fintype ι] {cfg : Config ι} {s : Store} {fs : Files} {i : ι}

/-- Files with none under the names of the tester, and room for its values. -/
structure Prepared (build : Build) (cfg : Config ι) (s : Store) (fs : Files) : Prop where
  holds : Holds build s fs
  absent : ∀ i, ∀ name ∈ (cfg.share i).names, fs.number name = none
  blocks : fs.used + Fintype.card ι * cfg.need ≤ dataBits
  slots : fs.total (fun _ => 1) + Fintype.card ι * 2 ≤ objectSlots

lemma Prepared.lookup (h : Prepared build cfg s fs) {name : CString}
    (hname : name ∈ (cfg.share i).names) : fs.lookup name = none := by
  rw [Files.lookup, h.absent i name hname, Option.bind_none]

/-- The threads share what is left of the disk. -/
lemma Prepared.split (h : Prepared build cfg s fs) : Split cfg.share fs fun _ => fs.lookup := by
  have hzero : ∀ w i, Part.total w (cfg.share i).names fs.lookup = 0 := fun w i =>
    Finset.sum_eq_zero fun name hname => by rw [h.lookup hname, Option.elim_none]
  have htwo : ∀ i, (cfg.share i).names.card = 2 := fun i => Finset.card_pair (key_ne_keyp _ _)
  refine ⟨fun _ _ _ => rfl, ⟨fun i => ?_, ?_⟩, ⟨fun i => ?_, ?_⟩⟩
  · rw [hzero]
    exact Nat.zero_le _
  · simp only [hzero, Nat.sub_zero]
    exact (congrArg (fs.used + ·) (Finset.sum_const cfg.need)).trans_le h.blocks
  · rw [hzero]
    exact Nat.zero_le _
  · simp only [hzero, Nat.sub_zero, htwo]
    exact (congrArg (_ + ·) (Finset.sum_const 2)).trans_le h.slots

omit [Fintype ι] in
/-- All rounds of a thread. -/
lemma meets_run {v : View} (hcfg : Valid cfg) (hv : Between cfg i cfg.runs v) :
    Meets (spec (cfg.share i)) (fun u _ => Between cfg i 0 u) (run cfg i) cfg.calls v :=
  meets_rounds (I := fun left u _ => Between cfg i left u)
    (fun _ _ m hu => meets_testRound hcfg le_rfl hu m) cfg.runs hv

lemma Prepared.between (h : Prepared build cfg s fs) :
    Between cfg i cfg.runs (fs.lookup, false) := by
  have hclean : ∀ name ∈ (cfg.share i).names, Cleanable (fs.lookup, false) name :=
    fun name hname n f hf => absurd (hf.symm.trans (h.lookup hname)) (Option.some_ne_none _)
  exact ⟨rfl, hclean _ (key_mem ..), hclean _ (keyp_mem ..), fun hlt => absurd hlt (lt_irrefl _)⟩

/-- The threads at their start keep to their shares. -/
lemma Prepared.keeping [DecidableEq ι] (h : Prepared build cfg s fs) (hcfg : Valid cfg) :
    Keeping (fun i => spec (cfg.share i)) (Sound build cfg.share)
      (fun i u _ => Between cfg i 0 u) (fun _ => cfg.calls) (start cfg s) := by
  refine ⟨fun _ => (fs.lookup, false), ⟨⟨fs, h.holds, h.split⟩, rfl, rfl, rfl, fun i => ?_⟩,
    fun i => meets_run hcfg h.between⟩
  exact iff_of_false Bool.false_ne_true (Option.some_ne_none i).symm

/-- The value of a thread is in the file under its second name. -/
def Stored (cfg : Config ι) (i : ι) (fs : Files) : Prop :=
  ∃ n f, fs.number (keyp (cfg.num i)) = some n ∧ fs.file n = some f ∧ f.size = cfg.size ∧
    ∀ x < cfg.size, f.byte x = cfg.value i x

/-- What the threads know, said of the files. -/
lemma Between.stored_files {v : ι → View} (hv : Between cfg i 0 (v i)) (hruns : 0 < cfg.runs)
    (hsplit : Split cfg.share fs fun i => (v i).1) : Stored cfg i fs := by
  obtain ⟨n, hn⟩ := hv.stored hruns
  have hknown := hsplit.known i (keyp (cfg.num i)) (keyp_mem ..)
  rw [hn] at hknown
  obtain ⟨hnumber, hfile⟩ := lookup_eq_some.mp hknown.symm
  exact ⟨n, _, hnumber, hfile, min_eq_right (totalBlocks_le.mp le_rfl), fun x hx => filled_byte hx⟩

/-- However the calls of its threads follow each other, the tester notes no failure, makes a
bounded number of calls and can go on to its end, and threads at their end have stored what they
put. -/
theorem tester_succeeds [DecidableEq ι] (hcfg : Valid cfg) (h : Prepared build cfg s fs)
    {sched : List ι} {x : Threads (World ι) (Code Memory) ι} {rs : List Unit}
    (hrun : Machine.run (advance (act (serve build))) (start cfg s) sched = some (x, rs)) :
    x.shared.fail = 0 ∧ x.shared.error = none ∧ (∀ i, sched.count i ≤ cfg.calls) ∧
      (∃ rest y rs', Machine.run (advance (act (serve build))) x rest = some (y, rs') ∧
        ∀ i, ∃ m, y.locals i = .done m) ∧
      ∃ fs', Holds build x.shared.store fs' ∧
        ∀ i m, x.locals i = .done m → 0 < cfg.runs → Stored cfg i fs' := by
  have hserve : Implements (serve build) _ (Sound build cfg.share) _ :=
    serve_implements (shares_apart cfg.need hcfg.inj hcfg.num)
  obtain ⟨left, hcount, hk⟩ := (h.keeping hcfg).run hserve hrun
  have hend := hk.completes hserve fun i v _ hv => by rw [hv.lock]; exact Bool.false_ne_true
  obtain ⟨v, hx, hmeets⟩ := hk
  obtain ⟨fs', hholds, hsplit⟩ := hx.files
  refine ⟨hx.fail, hx.error, fun i => by have hi := hcount i; omega, hend, fs', hholds,
    fun i m hdone hruns => ?_⟩
  have hi := hmeets i
  rw [hdone] at hi
  exact Between.stored_files hi hruns hsplit

/-- The constants of `test.c`; the kernel looks each name up once, writes page by page and asks
for 32 pages at a time. -/
def testConfig : Config (Fin 8) where
  size := 2000 * 1024
  runs := 10
  rdRuns := 50
  num := Fin.val
  value i x := UInt8.ofNat ((i + 1) * (x % 128))
  obtained _ _ := 0
  kernel := ⟨fun _ => 1, valuePages, fun _ => 32⟩

lemma testConfig_valid : Valid testConfig where
  size := by decide
  blocks := by decide
  pagewise := by simp only [testConfig]
  ahead _ := Nat.succ_pos 31
  inj := Fin.val_injective
  num i := i.isLt.trans (by norm_num)

lemma testConfig_prepared :
    Prepared .objfs testConfig (objstoreInit blankDevice) noFiles where
  holds := empty_holds (objstoreInit_empty blankDevice_blank)
  absent _ _ _ := rfl
  blocks := by
    rw [Files.used, total_noFiles]
    decide
  slots := by
    rw [total_noFiles, objectSlots_eq]
    decide

theorem tester_succeeds_alone : ∃ sched x rs fs,
    Machine.run (advance (act (serve .objfs))) (start testConfig (objstoreInit blankDevice)) sched =
        some (x, rs) ∧
      x.shared.error = none ∧ Holds .objfs x.shared.store fs ∧ ∀ i, Stored testConfig i fs := by
  obtain ⟨-, -, -, ⟨sched, x, rs, hrun, hdone⟩, -⟩ :=
    tester_succeeds testConfig_valid testConfig_prepared
      (show Machine.run (advance (act (serve .objfs))) _ [] = some (_, []) from rfl)
  obtain ⟨-, herror, -, -, fs, hholds, hstored⟩ :=
    tester_succeeds testConfig_valid testConfig_prepared hrun
  refine ⟨sched, x, rs, fs, hrun, herror, hholds, fun i => ?_⟩
  obtain ⟨m, hm⟩ := hdone i
  exact hstored i m hm (by decide)

end Runs

end OsAssignments.Tester
