import Simt.Cpp.Main
import Simt.Sm.DivergenceTests
import Simt.Stats.DivStats

/-
The sweep of `divergence_sweep.py`: the command lines, the runs of
`tb_divergence_phase4.sv` and what `parse_div_stats` reads from their files.

Of the plusargs the script passes, the testbench reads the name of the
statistics file alone.  Its directed tests leave the same counters whatever the
rate, so a sweep measures one run five times.
-/

namespace Simt
namespace DivergenceSweep

open Cpp (Files)
open Python (Number)
open Rtl (Counters Params)
open Rtl.TbDivergencePhase4 (finalCounters finalCounters_spec toNat_finalCounters)

/-! ## `run_divergence_sweep` -/

/-- `DIVERGENCE_RATES`, in hundredths. -/
def divergenceRates : List Nat := [0, 10, 25, 50, 75]

def warpCount : Nat := 16

def memLatency : Nat := 50

/-- `f"{n:0{k}d}"`. -/
def pad (k n : Nat) : String :=
  String.ofList (List.replicate (k - (toString n).length) '0') ++ toString n

/-- `output_dir / f"div_stats_{int(pct):03d}.txt"`. -/
def statsPath (outputDir : String) (rate : Nat) : String :=
  outputDir ++ "/div_stats_" ++ pad 3 rate ++ ".txt"

/-- The arguments after the simulator command. -/
def plusargs (outputDir : String) (rate : Nat) : List String :=
  ["+divergence_rate=" ++ toString (rate / 100) ++ "." ++ pad 2 (rate % 100),
    "+warp_count=" ++ toString warpCount, "+mem_latency=" ++ toString memLatency,
    "+stats_file=" ++ statsPath outputDir rate]

/-- How `subprocess.run` ends, `check` apart. -/
inductive Ended
  | fileNotFound
  /-- Another exception, such as the one at the time limit. -/
  | raised
  | returned (rc : Int) (files : Files)

/-- The simulator command on its plusargs. -/
abbrev Simulator := List String → Files → Ended

def failedStats : Dict String Number := [("ipc", .float 0), ("divergence_overhead_pct", .float 0)]

/-- `parse_div_stats` on the file at a path.  A missing file is caught, a value
that cannot be read is not. -/
def readPoint (path : String) (files : Files) : Option (Dict String Number × Files) :=
  match files path with
  | none => some (failedStats, files)
  | some text =>
    match parseDivStats text warpCount with
    | .ok stats => some (stats, files)
    | .error _ => none

/-- One round of the loop. -/
def sweepPoint (sim : Simulator) (outputDir : String) (rate : Nat) (files : Files) :
    Option (Dict String Number × Files) :=
  match sim (plusargs outputDir rate) files with
  | .fileNotFound => some (failedStats, files)
  | .raised => none
  | .returned rc files =>
    if rc ≠ 0 then some (failedStats, files) else readPoint (statsPath outputDir rate) files

def runDivergenceSweep (sim : Simulator) (outputDir : String) (files : Files) :
    Option (Dict Nat (Dict String Number) × Files) :=
  Dict.fill (sweepPoint sim outputDir) divergenceRates [] files

/-- `results[r]["ipc"]`. -/
def ipc (stats : Dict String Number) : Rat := ((stats.get "ipc").bind Number.finite).getD 0

/-- `degradation` of `plot_divergence_ipc`. -/
def degradation (results : Dict Nat (Dict String Number)) : List Rat :=
  let ipcs := results.map fun e => ipc e.2
  let base := if 0 < ipcs.headD 0 then ipcs.headD 0 else 1
  ipcs.map fun ipc => (base - ipc) / base * 100

/-! ## The testbench -/

/-- `$value$plusargs("name=%s", value)`. -/
def plusarg (name : String) (args : List String) : Option String :=
  let key := ("+" ++ name ++ "=").toList
  args.findSome? fun arg =>
    if key.isPrefixOf arg.toList then some (String.ofList (arg.toList.drop key.length)) else none

/-- The `final` block on the counters at the end of the tests. -/
def final (canOpen : String → Bool) (c : Counters) (args : List String) (files : Files) : Files :=
  let fname := (plusarg "stats_file" args).getD "div_stats.txt"
  if canOpen fname then Function.update files fname (some c.dump) else files

/-- A run that returns 0 has run the tests on `mini_sm_top` to their end.  One
build of the testbench resolves its races in one way. -/
def Runs (p : Params) (canOpen : String → Bool) (late : Nat → Bool) (last : Bool)
    (sim : Simulator) : Prop :=
  ∀ args files files', sim args files = .returned 0 files' →
    files' = final canOpen (finalCounters p late last) args files

theorem plusarg_hit (name value : String) (args : List String) :
    plusarg name (("+" ++ name ++ "=" ++ value) :: args) = some value := by
  have hkey : ("+" ++ name ++ "=" ++ value).toList = ("+" ++ name ++ "=").toList ++ value.toList :=
    String.toList_append
  have hmatch : ("+" ++ name ++ "=").toList.isPrefixOf
      (("+" ++ name ++ "=").toList ++ value.toList) = true :=
    List.isPrefixOf_iff_prefix.mpr (List.prefix_append _ _)
  rw [plusarg, List.findSome?_cons, hkey, if_pos hmatch, List.drop_left, String.ofList_toList]

theorem plusarg_miss {name arg : String} (args : List String)
    (h : ("+" ++ name ++ "=").toList.isPrefixOf arg.toList = false) :
    plusarg name (arg :: args) = plusarg name args := by
  rw [plusarg, List.findSome?_cons, if_neg (by rw [h]; exact Bool.false_ne_true)]
  rfl

theorem plusarg_statsFile (outputDir : String) (rate : Nat) :
    plusarg "stats_file" (plusargs outputDir rate) = some (statsPath outputDir rate) := by
  rw [plusargs, plusarg_miss, plusarg_miss, plusarg_miss]
  · exact plusarg_hit "stats_file" _ []
  · simp [String.toList_append, List.isPrefixOf]
  · simp [String.toList_append, List.isPrefixOf]
  · simp [String.toList_append, List.isPrefixOf]

/-- The reader on any dump, also on that of a run without cycles. -/
theorem parseDivStats_dump_warpCount (c : Counters) :
    parseDivStats c.dump warpCount = .ok (expected c warpCount) := by
  by_cases hc : c.cycleCount = 0
  · rw [parseDivStats, readStats_dump, expected, Counters.keyed, hc]
    simp [derive, Dict.get, Dict.set, overhead, hc, bind, Except.bind, pure, Except.pure]
  · exact parseDivStats_dump hc (by decide)

/-! ## The sweep -/

section Sweep

variable {p : Params} {canOpen : String → Bool} {late : Nat → Bool} {last : Bool} {sim : Simulator}
variable (hruns : Runs p canOpen late last sim)
variable {outputDir : String} {rate : Nat} {files : Files}

include hruns

theorem sweepPoint_returned (hopen : canOpen (statsPath outputDir rate) = true) {files' : Files}
    (h : sim (plusargs outputDir rate) files = .returned 0 files') :
    sweepPoint sim outputDir rate files =
      some (expected (finalCounters p late last) warpCount, files') := by
  have hfile : files' (statsPath outputDir rate) = some (finalCounters p late last).dump := by
    rw [hruns _ _ _ h, final, plusarg_statsFile]
    dsimp only [Option.getD_some]
    rw [if_pos hopen, Function.update_self]
  simp only [sweepPoint, h, ne_eq, not_true, if_false, readPoint, hfile,
    parseDivStats_dump_warpCount]

theorem sweepPoint_eq (hopen : canOpen (statsPath outputDir rate) = true)
    {r : Dict String Number × Files} (h : sweepPoint sim outputDir rate files = some r) :
    r.1 = expected (finalCounters p late last) warpCount ∨ r.1 = failedStats := by
  cases hsim : sim (plusargs outputDir rate) files with
  | fileNotFound =>
    rw [sweepPoint, hsim] at h
    obtain rfl := Option.some.inj h
    exact .inr rfl
  | raised =>
    rw [sweepPoint, hsim] at h
    exact absurd h (by simp)
  | returned rc files' =>
    by_cases hrc : rc = 0
    · subst hrc
      rw [sweepPoint_returned hruns hopen hsim] at h
      obtain rfl := Option.some.inj h
      exact .inl rfl
    · simp only [sweepPoint, hsim, ne_eq, hrc, not_false_eq_true, if_true] at h
      obtain rfl := Option.some.inj h
      exact .inr rfl

omit hruns in
theorem ipc_expected (c : Counters) :
    ipc (expected c warpCount) = (c.issueCount.toNat : Rat) / c.cycleCount.toNat := by
  have hmem : ("ipc", Number.float ((c.issueCount.toNat : Rat) / c.cycleCount.toNat)) ∈
      expected c warpCount := List.mem_append_right _ List.mem_cons_self
  rw [ipc, Dict.get_of_mem (nodup_expected c warpCount) hmem]
  rfl

omit hruns in
/-- Against a baseline of the same value the loss is nothing, and against the
stand-in for a baseline of zero it is everything. -/
theorem degradation_const (rates : List Nat) (stats : Dict String Number) :
    degradation (rates.map fun n => (n, stats)) =
      rates.map fun _ => if 0 < ipc stats then 0 else (1 - ipc stats) * 100 := by
  cases rates with
  | nil => rfl
  | cons n rates =>
    have hhead : (((n :: rates).map fun n => (n, stats)).map fun e => ipc e.2).headD 0 =
        ipc stats := rfl
    rw [degradation, hhead, List.map_map, List.map_map]
    refine List.map_congr_left fun _ _ => ?_
    show ((if 0 < ipc stats then ipc stats else 1) - ipc stats) /
      (if 0 < ipc stats then ipc stats else 1) * 100 = _
    split_ifs
    · rw [sub_self, zero_div, zero_mul]
    · rw [div_one]

theorem runDivergenceSweep_eq
    (hopen : ∀ n ∈ divergenceRates, canOpen (statsPath outputDir n) = true)
    {results : Dict Nat (Dict String Number)} {files' : Files}
    (h : runDivergenceSweep sim outputDir files = some (results, files')) :
    results.map Prod.fst = divergenceRates ∧ ∀ e ∈ results,
      e.2 = expected (finalCounters p late last) warpCount ∨ e.2 = failedStats := by
  obtain ⟨entries, hkeys, hentries, hr⟩ := Dict.fill_entries (d := [])
    (P := fun _ stats =>
      stats = expected (finalCounters p late last) warpCount ∨ stats = failedStats)
    (by decide : divergenceRates.Nodup) (fun n hn _ _ h => sweepPoint_eq hruns (hopen n hn) h) h
  obtain rfl : results = entries := by rw [List.nil_append] at hr; exact hr
  exact ⟨hkeys, hentries⟩

theorem runDivergenceSweep_returned
    (hopen : ∀ n ∈ divergenceRates, canOpen (statsPath outputDir n) = true)
    (hback : ∀ n ∈ divergenceRates, ∀ files, ∃ files',
      sim (plusargs outputDir n) files = .returned 0 files') :
    ∃ files', runDivergenceSweep sim outputDir files =
      some (divergenceRates.map fun n => (n, expected (finalCounters p late last) warpCount),
        files') := by
  have hpoint : ∀ n ∈ divergenceRates, ∀ files, ∃ files', sweepPoint sim outputDir n files =
      some (expected (finalCounters p late last) warpCount, files') := by
    intro n hn files
    obtain ⟨files', hsim⟩ := hback n hn files
    exact ⟨files', sweepPoint_returned hruns (hopen n hn) hsim⟩
  have hsome : (runDivergenceSweep sim outputDir files).isSome = true :=
    Dict.isSome_fill fun n hn files => by
      obtain ⟨files', hn⟩ := hpoint n hn files
      rw [hn]
      rfl
  obtain ⟨⟨results, files'⟩, h⟩ := Option.isSome_iff_exists.mp hsome
  refine ⟨files', h.trans (congrArg (fun r => some (r, files')) ?_)⟩
  refine Dict.fill_eq_map (by decide : divergenceRates.Nodup) (fun n hn files r hr => ?_) h
  obtain ⟨files', hn⟩ := hpoint n hn files
  rw [hn] at hr
  obtain rfl := Option.some.inj hr
  rfl

end Sweep

end DivergenceSweep
end Simt
