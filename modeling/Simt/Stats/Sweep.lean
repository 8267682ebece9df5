import Simt.Cpp.Main
import Simt.Sm.Throughput
import Simt.Stats.RoundTrip

/-
The sweep of `perf_sweep.py` over the C++ simulator: the command lines, the runs
of `main` and what `parse_stats` reads from their files.
-/

namespace Simt
namespace PerfSweep

open Cpp (Files InInt MiniSM PerfCounters)
open Python (Number)

/-! ## `run_sweep_cpp` -/

def warpCounts : List Nat := [2, 4, 8, 16]

def memLatencies : List Nat := [4, 8, 16, 32]

/-- `itertools.product(WARP_COUNTS, MEM_LATENCIES)`. -/
def points : List (Nat × Nat) := warpCounts.flatMap fun w => memLatencies.map fun l => (w, l)

def zeroStats : Dict String Value :=
  [("ipc", .num (.float 0)), ("warp_efficiency", .num (.float 0)),
    ("stall_breakdown", .dict
      [("data_hazard", .float 0), ("structural", .float 0), ("memory_latency", .float 0),
        ("no_ready_warp", .float 0)])]

/-- What `subprocess.run` makes of the arguments of a binary: the return code
and the files after the run, or an exception such as the one at the time
limit. -/
abbrev Process := List String → Files → Option (Int × Files)

/-- `output_dir / f"stats_w{warps}_m{mem_lat}.txt"`. -/
def statsPath (outputDir : String) (warps memLat : Nat) : String :=
  outputDir ++ "/stats_w" ++ toString warps ++ "_m" ++ toString memLat ++ ".txt"

def runCppPoint (binary : Process) (warps execLatency : Nat) (cycles : Int) (path : String) :
    Files → Option (Int × Files) :=
  binary ["--warps", toString warps, "--exec-latency", toString execLatency,
    "--cycles", toString cycles, "--stats-file", path]

/-- One round of the loop.  An exception of `parse_stats` is caught, one of
`run_cpp_point` is not. -/
def sweepPoint (binary : Process) (outputDir : String) (cycles : Int) (point : Nat × Nat)
    (files : Files) : Option (Dict String Value × Files) := do
  let path := statsPath outputDir point.1 point.2
  let (rc, files) ← runCppPoint binary point.1 point.2 cycles path files
  if rc ≠ 0 then return (zeroStats, files)
  else
    match files path with
    | none => return (zeroStats, files)
    | some text =>
      match parseStats text with
      | .ok stats => return (stats, files)
      | .error _ => return (zeroStats, files)

def runSweepCpp (binary : Process) (outputDir : String) (cycles : Int) (files : Files) :
    Option (Dict (Nat × Nat) (Dict String Value) × Files) :=
  Dict.fill (sweepPoint binary outputDir cycles) points [] files

/-! ## One point -/

/-- The binary behaves as `main` does, when it comes back at all. -/
def Runs (canOpen : String → Bool) (binary : Process) : Prop :=
  ∀ args files r, binary args files = some r → (Cpp.main canOpen args files).Allows r

/-- The counters of `warps` warps after `n` cycles of the workload. -/
def pointCounters (warps execLatency n : Nat) : PerfCounters :=
  let issues := Cpp.roundIssues warps (max warps (execLatency + 1))
  { cycles := BitVec.ofNat 64 n
    instructions := BitVec.ofNat 64 (issues n)
    stallData := BitVec.ofNat 64 (n - issues n)
    cyclesIssuing := BitVec.ofNat 64 (issues n)
    wbCount := BitVec.ofNat 64 (issues (n - execLatency)) }

/-- The statistics of `warps` warps after `n` cycles of the workload. -/
def pointStats (warps execLatency n : Nat) : Dict String Value :=
  let issues := Cpp.roundIssues warps (max warps (execLatency + 1))
  [("cycles", .num (.int n)), ("instructions", .num (.int (issues n))),
    ("stall_data", .num (.int (n - issues n : Nat))), ("stall_structural", .num (.int 0)),
    ("stall_memory", .num (.int 0)), ("stall_no_warp", .num (.int 0)),
    ("cycles_issuing", .num (.int (issues n))),
    ("wb_count", .num (.int (issues (n - execLatency)))),
    ("total_diverge_events", .num (.int 0)), ("masked_thread_cycles", .num (.int 0)),
    ("ipc", .num (.float (issues n / n))),
    ("warp_efficiency", .num (.float (100 * (issues n / n)))),
    ("stall_breakdown", .dict
      [("data_hazard", .float (100 * ((n - issues n : Nat) / n))), ("structural", .float 0),
        ("memory_latency", .float 0), ("no_ready_warp", .float 0)])]

section Point

variable {w l : Nat}

theorem roundIssues_le {W P : Nat} (hWP : W ≤ P) (n : Nat) : Cpp.roundIssues W P n ≤ n := by
  have hfull := Nat.mul_le_mul_left (n / P) hWP
  have hrest := Nat.min_le_left (n % P) W
  have hn := Nat.div_add_mod' n P
  unfold Cpp.roundIssues
  omega

/-- `parse_stats` on the file of a point with a cycle. -/
theorem parseStats_point {n : Nat} (hpos : 1 ≤ n) (hn : n < 2 ^ 64) :
    parseStats (pointCounters w l n).writeFile = .ok (pointStats w l n) := by
  have hle := fun k => roundIssues_le (Nat.le_max_left w (l + 1)) k
  have hback := Nat.le_trans (hle (n - l)) (Nat.sub_le n l)
  have hcount : ∀ k, k ≤ n → (BitVec.ofNat 64 k).toNat = k := fun k hk => by
    rw [BitVec.toNat_ofNat, Nat.mod_eq_of_lt (by omega)]
  have hne : (pointCounters w l n).cycles ≠ 0 := by
    intro h
    have hzero := congrArg BitVec.toNat h
    rw [show (pointCounters w l n).cycles = BitVec.ofNat 64 n from rfl,
      hcount n (Nat.le_refl n)] at hzero
    exact absurd hzero (by simp; omega)
  rw [parseStats_cycles hne]
  simp only [expected, PerfCounters.keyed, pointCounters, pointStats, ratio, hcount _ (hle n),
    hcount n (Nat.le_refl n), hcount _ (Nat.sub_le n _), hcount _ hback]
  simp

theorem counters_point (hw : 1 ≤ w) (hl : 1 ≤ l) (n : Nat) :
    ((MiniSM.machine { warps := w, execLatency := l }).stateAt (fun _ => Cpp.rawHeavy _) n).counters
      = pointCounters w l n :=
  @MiniSM.counters_mainRun { warps := w, execLatency := l } hw hl
    (show 2 ≤ 16 by decide) n

end Point

/-! ## The runs of `main` -/

/-- Sizes that `main` takes without undefined behaviour. -/
def Sized (e : Nat × Nat) : Prop := 1 ≤ e.1 ∧ e.1 * 16 < 2 ^ 31 ∧ 1 ≤ e.2 ∧ e.2 < 2 ^ 31

instance (e : Nat × Nat) : Decidable (Sized e) := instDecidableAnd

theorem sized_points : ∀ e ∈ points, Sized e := by decide

theorem statsPath_ne (outputDir : String) (w l : Nat) : statsPath outputDir w l ≠ "" := by
  intro h
  have hlist := congrArg String.toList h
  simp [statsPath] at hlist

section Run

variable {canOpen : String → Bool} {binary : Process} {outputDir : String} {cycles : Int}
variable {e : Nat × Nat} {files : Files}

theorem parseArgs_point (w l : Nat) (cycles : Int) (path : String)
    (hw : InInt w) (hl : InInt l) :
    Cpp.parseArgs {} ["--warps", toString w, "--exec-latency", toString l,
      "--cycles", toString cycles, "--stats-file", path] =
        if InInt cycles then
          .run { warps := w, execLatency := l, cycles := cycles, statsFile := path }
        else .threw .outOfRange := by
  refine (Cpp.parseArgs_setting _ false (.warps w) _).trans ((if_pos hw).trans ?_)
  refine (Cpp.parseArgs_setting _ false (.execLatency l) _).trans ((if_pos hl).trans ?_)
  refine (Cpp.parseArgs_setting _ false (.cycles cycles) _).trans (if_congr Iff.rfl ?_ rfl)
  exact (Cpp.parseArgs_setting _ false (.statsFile path) []).trans (if_pos trivial)

/-- The files after the run for a point. -/
def written (canOpen : String → Bool) (outputDir : String) (cycles : Int) (e : Nat × Nat)
    (files : Files) : Files :=
  let path := statsPath outputDir e.1 e.2
  if InInt cycles ∧ canOpen path = true then
    Function.update files path (some (pointCounters e.1 e.2 cycles.toNat).writeFile)
  else files

theorem main_point (he : Sized e) (files : Files) :
    Cpp.main canOpen ["--warps", toString e.1, "--exec-latency", toString e.2,
      "--cycles", toString cycles, "--stats-file", statsPath outputDir e.1 e.2] files =
        if InInt cycles ∧ canOpen (statsPath outputDir e.1 e.2) = true then
          .returns (written canOpen outputDir cycles e files)
        else .aborts (written canOpen outputDir cycles e files) := by
  obtain ⟨hw, hw16, hl, hl31⟩ := he
  have hregs : InInt ((e.1 : Int) * (({} : Cpp.Config).regs : Int)) := by
    show -2 ^ 31 ≤ (e.1 : Int) * 16 ∧ (e.1 : Int) * 16 < 2 ^ 31
    omega
  rw [Cpp.main, parseArgs_point e.1 e.2 cycles _ (by unfold InInt; omega) (by unfold InInt; omega)]
  by_cases hc : InInt cycles
  · rw [if_pos hc]
    dsimp only
    rw [if_neg (by omega)]
    refine (if_neg (not_not_intro hregs)).trans ?_
    rw [if_neg (by omega), if_neg (by omega), if_neg (statsPath_ne _ _ _)]
    by_cases ho : canOpen (statsPath outputDir e.1 e.2) = true
    · rw [if_pos ho, if_pos ⟨hc, ho⟩, written, if_pos ⟨hc, ho⟩]
      have hfinal := counters_point hw hl cycles.toNat
      exact congrArg (fun c : PerfCounters => Cpp.Outcome.returns
        (Function.update files _ (some c.writeFile))) hfinal
    · rw [if_neg ho, if_neg fun h => ho h.2, written, if_neg fun h => ho h.2]
  · rw [if_neg hc, if_neg fun h => hc h.1, written, if_neg fun h => hc h.1]

/-- The run for a point had a cycle and left its file. -/
def Measured (canOpen : String → Bool) (outputDir : String) (cycles : Int) (e : Nat × Nat) : Prop :=
  1 ≤ cycles ∧ cycles < 2 ^ 31 ∧ canOpen (statsPath outputDir e.1 e.2) = true

instance : Decidable (Measured canOpen outputDir cycles e) := instDecidableAnd

/-- The entry of a point in the results. -/
def reported (canOpen : String → Bool) (outputDir : String) (cycles : Int) (e : Nat × Nat) :
    Dict String Value :=
  if Measured canOpen outputDir cycles e then pointStats e.1 e.2 cycles.toNat else zeroStats

theorem parseStats_written (hc : InInt cycles) (w l : Nat) :
    parseStats (pointCounters w l cycles.toNat).writeFile =
      if 1 ≤ cycles then .ok (pointStats w l cycles.toNat) else .error .zeroDivision := by
  have hlt := hc.2
  by_cases hpos : 1 ≤ cycles
  · rw [if_pos hpos]
    exact parseStats_point (by omega) (by omega)
  · rw [if_neg hpos]
    apply parseStats_no_cycles
    rw [Int.toNat_of_nonpos (by omega)]
    rfl

theorem sweepPoint_eq (hruns : Runs canOpen binary) (he : Sized e) {r : Dict String Value × Files}
    (h : sweepPoint binary outputDir cycles e files = some r) :
    r = (reported canOpen outputDir cycles e, written canOpen outputDir cycles e files) := by
  obtain ⟨⟨rc, files'⟩, hrun, h⟩ := Option.bind_eq_some_iff.mp h
  have hallows := hruns _ _ _ hrun
  rw [main_point he] at hallows
  by_cases hopen : InInt cycles ∧ canOpen (statsPath outputDir e.1 e.2) = true
  · rw [if_pos hopen] at hallows
    obtain ⟨rfl, rfl⟩ := Prod.mk.inj hallows
    have hfile : written canOpen outputDir cycles e files (statsPath outputDir e.1 e.2) =
        some (pointCounters e.1 e.2 cycles.toNat).writeFile := by
      rw [written, if_pos hopen, Function.update_self]
    have hlow := hopen.1.1
    have hhigh := hopen.1.2
    simp only [ne_eq, not_true_eq_false, if_false, hfile, parseStats_written hopen.1] at h
    rw [reported]
    by_cases hpos : 1 ≤ cycles
    · rw [if_pos (show Measured canOpen outputDir cycles e from ⟨hpos, hhigh, hopen.2⟩)]
      rw [if_pos hpos] at h
      exact (Option.some.inj h).symm
    · rw [if_neg fun hm => hpos hm.1]
      rw [if_neg hpos] at h
      exact (Option.some.inj h).symm
  · rw [if_neg hopen] at hallows
    obtain ⟨hrc, rfl⟩ := hallows
    have hnot : ¬ Measured canOpen outputDir cycles e := fun hm =>
      hopen ⟨⟨by have := hm.1; omega, hm.2.1⟩, hm.2.2⟩
    rw [reported, if_neg hnot]
    simp only [if_pos hrc] at h
    exact (Option.some.inj h).symm

theorem isSome_sweepPoint
    (hback :
      (runCppPoint binary e.1 e.2 cycles (statsPath outputDir e.1 e.2) files).isSome = true) :
    (sweepPoint binary outputDir cycles e files).isSome = true := by
  obtain ⟨r, hr⟩ := Option.isSome_iff_exists.mp hback
  rw [sweepPoint, hr, Option.bind_eq_bind, Option.bind_some]
  dsimp only
  split
  · rfl
  · split
    · rfl
    · split <;> rfl

/-! ## The whole sweep -/

theorem nodup_points : points.Nodup := by decide

theorem nodup_paths (outputDir : String) :
    (points.map fun e => statsPath outputDir e.1 e.2).Nodup := by
  have hsuffix : (points.map fun e => statsPath "" e.1 e.2).Nodup := by decide +kernel
  have hinj : Function.Injective fun s : String => outputDir ++ s := by
    intro a b hab
    have hlist := congrArg String.toList hab
    simp only [String.toList_append] at hlist
    exact String.toList_inj.mp (List.append_cancel_left hlist)
  have hmap := hsuffix.map hinj
  rw [List.map_map] at hmap
  refine (List.map_congr_left fun e _ => ?_) ▸ hmap
  simp only [Function.comp_apply, statsPath, String.empty_append, String.append_assoc]

theorem written_of_ne {path : String}
    (h : InInt cycles → canOpen path = true → path ≠ statsPath outputDir e.1 e.2) :
    written canOpen outputDir cycles e files path = files path := by
  rw [written]
  split
  next hopen =>
    apply Function.update_of_ne
    intro hpath
    exact h hopen.1 (hpath ▸ hopen.2) hpath
  next => rfl

/-- A file that is no point's stays as it was. -/
theorem foldl_written_of_not_mem {path : String} {ps : List (Nat × Nat)}
    (h : InInt cycles → canOpen path = true →
      path ∉ ps.map fun e => statsPath outputDir e.1 e.2) :
    ps.foldl (fun files e => written canOpen outputDir cycles e files) files path = files path := by
  induction ps generalizing files with
  | nil => rfl
  | cons e ps ih =>
    rw [List.foldl_cons, ih fun hc ho hmem => h hc ho (List.mem_cons_of_mem _ hmem)]
    exact written_of_ne fun hc ho heq => h hc ho (heq ▸ List.mem_cons_self)

/-- The file of a point holds the counters of its run. -/
theorem foldl_written_of_mem {ps : List (Nat × Nat)} (hc : InInt cycles)
    (hnodup : (ps.map fun e => statsPath outputDir e.1 e.2).Nodup) (he : e ∈ ps)
    (ho : canOpen (statsPath outputDir e.1 e.2) = true) :
    ps.foldl (fun files e => written canOpen outputDir cycles e files) files
        (statsPath outputDir e.1 e.2) =
      some (pointCounters e.1 e.2 cycles.toNat).writeFile := by
  induction ps generalizing files with
  | nil => exact absurd he List.not_mem_nil
  | cons e' ps ih =>
    obtain ⟨hnew, hnodup⟩ := List.nodup_cons.mp hnodup
    rcases List.mem_cons.mp he with rfl | he
    · rw [List.foldl_cons, foldl_written_of_not_mem fun _ _ => hnew, written, if_pos ⟨hc, ho⟩,
        Function.update_self]
    · exact ih hnodup he

theorem keys_results (f : Nat × Nat → Dict String Value) :
    (points.map fun e => (e, f e)).map Prod.fst = points := by
  rw [List.map_map]
  exact List.map_id _

theorem runSweepCpp_eq (hruns : Runs canOpen binary)
    {r : Dict (Nat × Nat) (Dict String Value) × Files}
    (h : runSweepCpp binary outputDir cycles files = some r) :
    r.1 = (points.map fun e => (e, reported canOpen outputDir cycles e)) ∧
      r.2 = points.foldl (fun files e => written canOpen outputDir cycles e files) files := by
  have hpoint : ∀ e ∈ points, ∀ files r, sweepPoint binary outputDir cycles e files = some r →
      r = (reported canOpen outputDir cycles e, written canOpen outputDir cycles e files) :=
    fun e he _ _ hr => sweepPoint_eq hruns (sized_points e he) hr
  refine ⟨Dict.fill_eq_map nodup_points ?_ h, Dict.fill_state ?_ h⟩
  · exact fun e he files r hr => congrArg Prod.fst (hpoint e he files r hr)
  · exact fun e he files r hr => congrArg Prod.snd (hpoint e he files r hr)

/-- The sweep reports the closed form of the workload for every point whose file
can be written, and zeros for all points unless `cycles` is a positive `int`.
Nothing is taken from the files it finds, and no other file changes. -/
theorem sweep_reports (hruns : Runs canOpen binary) (outputDir : String) (cycles : Int)
    (files : Files) :
    ((∀ e ∈ points, ∀ files,
        (runCppPoint binary e.1 e.2 cycles (statsPath outputDir e.1 e.2) files).isSome = true) →
      (runSweepCpp binary outputDir cycles files).isSome = true) ∧
      ∀ results files', runSweepCpp binary outputDir cycles files = some (results, files') →
        (results = points.map fun e => (e,
          if 1 ≤ cycles ∧ cycles < 2 ^ 31 ∧ canOpen (statsPath outputDir e.1 e.2) = true then
            pointStats e.1 e.2 cycles.toNat
          else zeroStats)) ∧
        (∀ e ∈ points, InInt cycles → canOpen (statsPath outputDir e.1 e.2) = true →
          files' (statsPath outputDir e.1 e.2) =
            some (pointCounters e.1 e.2 cycles.toNat).writeFile) ∧
        ∀ path, (InInt cycles → canOpen path = true →
          ∀ e ∈ points, path ≠ statsPath outputDir e.1 e.2) → files' path = files path := by
  refine ⟨fun hback => Dict.isSome_fill fun e he files => isSome_sweepPoint (hback e he files),
    fun results files' h => ?_⟩
  obtain ⟨hresults, hfiles⟩ := runSweepCpp_eq hruns h
  dsimp only at hresults hfiles
  rw [hfiles]
  refine ⟨hresults, fun e he hc ho => ?_, fun path hpath => ?_⟩
  · exact foldl_written_of_mem hc (nodup_paths outputDir) he ho
  · refine foldl_written_of_not_mem fun hc ho hmem => ?_
    obtain ⟨e, he, heq⟩ := List.mem_map.mp hmem
    exact hpath hc ho e he heq.symm

/-- A binary that behaves as `main` does. -/
def simulator (canOpen : String → Bool) : Process := fun args files =>
  match Cpp.main canOpen args files with
  | .returns files => some (0, files)
  | .aborts files => some (1, files)
  | .undefined => some (0, files)

theorem runs_simulator (canOpen : String → Bool) : Runs canOpen (simulator canOpen) := by
  intro args files r h
  unfold simulator at h
  cases hmain : Cpp.main canOpen args files with
  | returns files' =>
    rw [hmain] at h
    exact (Option.some.inj h).symm
  | aborts files' =>
    rw [hmain] at h
    obtain rfl := Option.some.inj h
    exact ⟨Int.one_ne_zero, rfl⟩
  | undefined => trivial

theorem isSome_simulator (canOpen : String → Bool) (args : List String) (files : Files) :
    (simulator canOpen args files).isSome = true := by
  unfold simulator
  split <;> rfl

theorem isSome_runSweepCpp (canOpen : String → Bool) (outputDir : String) (cycles : Int)
    (files : Files) : (runSweepCpp (simulator canOpen) outputDir cycles files).isSome = true :=
  Dict.isSome_fill fun _ _ files => isSome_sweepPoint (isSome_simulator canOpen _ files)

/-- The default sweep into an empty directory. -/
theorem sweep_reports_default :
    (runSweepCpp (simulator fun _ => true) "out" 2000 fun _ => none).map (fun r => r.1.get (8, 4)) =
      some (some (pointStats 8 4 2000)) := by
  have hsweep := sweep_reports (runs_simulator fun _ => true) "out" 2000 fun _ => none
  obtain ⟨⟨results, files'⟩, h⟩ := Option.isSome_iff_exists.mp
    (hsweep.1 fun _ _ _ => isSome_simulator _ _ _)
  rw [h, Option.map_some, (hsweep.2 _ _ h).1]
  rfl

end Run

end PerfSweep
end Simt
