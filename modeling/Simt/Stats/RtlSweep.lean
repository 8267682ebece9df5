import Simt.Sm.IdleStart
import Simt.Sm.Progress
import Simt.Sm.RtlCounters
import Simt.Stats.DivStats
import Simt.Stats.Sweep

/-
The sweep over the RTL: the run of `tb_perf_sweep.sv`, the statistics file it
leaves and what `parse_stats` of `perf_sweep.py` reads from it.

The testbench changes the ports at the clock edges that the SM samples them at,
and which comes first is up to the simulator.  So the number of edges that the
SM sees before and after the warps are loaded is left open.
-/

namespace Simt

/-! ## `tb_perf_sweep` -/

namespace Rtl
namespace TbPerfSweep

variable {p : Params}

/-- `make_dep_instr`, as far as `mini_sm_top` reads it. -/
def makeDepInstr : InstrMeta p := { src0 := 0, src1 := 1, dst := 0, hasDst := true, sel := 0 }

/-- The ports at the start of the stimulus. -/
def idlePorts : SmIn p where
  warpHasInstr := Vector.replicate _ false
  warpInstr := Vector.replicate _ default
  warpA := Vector.replicate _ (Vector.replicate _ 0)
  warpB := Vector.replicate _ (Vector.replicate _ 0)
  warpIsBranch := Vector.replicate _ false
  warpBranchCond := Vector.replicate _ 0
  warpReconvergePc := Vector.replicate _ 0
  warpPathDone := Vector.replicate _ false

/-- The ports after the loop that loads the warps. -/
def loadedPorts : SmIn p :=
  { idlePorts with
    warpHasInstr := Vector.replicate _ true
    warpInstr := Vector.replicate _ makeDepInstr
    warpA := Vector.ofFn fun w => Vector.ofFn fun l =>
      (BitVec.ofNat 32 (w.val * 8 + l.val + 1)).setWidth _
    warpB := Vector.replicate _ (Vector.replicate _ ((1 : BitVec 32).setWidth _)) }

/-- `RUN_CYCLES`. -/
def runCycles (p : Params) : Nat := p.execLatency * p.warps * 6 + 200

/-- The ports at the edges after the reset. -/
def stimulus (p : Params) (idle : Nat) : Nat → SmIn p :=
  Mealy.afterIdle idle idlePorts fun _ => loadedPorts

/-- The text that the `final` block writes. -/
def statsText (c : Counters) : String :=
  Counters.line "cycles=" c.cycleCount ++
  Counters.line "instructions=" c.issueCount ++
  Counters.line "stall_data=" c.stallDataHazard ++
  Counters.line "stall_structural=" c.stallStructural ++
  Counters.line "stall_memory=" c.stallMemoryLatency ++
  Counters.line "stall_no_warp=" c.stallNoReadyWarp ++
  Counters.line "cycles_issuing=" c.cyclesWithIssue ++
  Counters.line "wb_count=" c.wbCount

end TbPerfSweep
end Rtl

/-! ## The run -/

namespace Sm

open Cpp (Config InRange MiniSM roundIssues)
open Cpp.MiniSM (noInstrs mainRun period)
open Rtl (Params SmIn MiniSmTop)
open Rtl.MiniSmTop (issuedAt blockedAt)
open Rtl.TbPerfSweep (idlePorts loadedPorts makeDepInstr stimulus)

section Workload

variable {cfg : Config} {dataWidth pcW : Nat}

theorem instrsOf_idlePorts :
    instrsOf (idlePorts : SmIn (params cfg dataWidth pcW)) = noInstrs cfg := by
  apply Vector.ext
  intro w hw
  simp [instrsOf, idlePorts, noInstrs]

theorem loadedPorts_getD {w : Nat} (hw : w < cfg.warps) :
    (loadedPorts : SmIn (params cfg dataWidth pcW)).warpHasInstr.getD w false = true ∧
      (loadedPorts : SmIn (params cfg dataWidth pcW)).warpInstr.getD w default = makeDepInstr :=
  ⟨(getD_of_lt _ hw false).trans (Vector.getElem_replicate hw),
    (getD_of_lt _ hw _).trans (Vector.getElem_replicate hw)⟩

theorem toNat_src1 (hR : 2 ≤ cfg.regs) :
    (makeDepInstr : Rtl.InstrMeta (params cfg dataWidth pcW)).src1.toNat = 1 := by
  have hwidth : 1 ≤ Nat.clog 2 cfg.regs := Nat.clog_pos Nat.one_lt_two hR
  exact BitVec.toNat_one hwidth

theorem instrsOf_loadedPorts (hR : 2 ≤ cfg.regs) :
    instrsOf (loadedPorts : SmIn (params cfg dataWidth pcW)) = Cpp.rawHeavy cfg := by
  apply Vector.ext
  intro w hw
  obtain ⟨hhas, hinstr⟩ := @loadedPorts_getD cfg dataWidth pcW w hw
  rw [instrsOf, Vector.getElem_ofFn, Cpp.rawHeavy, Vector.getElem_replicate]
  dsimp only
  rw [hhas, hinstr, if_pos rfl, toNat_src1 hR]
  rfl

/-- The stimulus as the simulator is given it. -/
theorem instrsOf_stimulus (hR : 2 ≤ cfg.regs) (idle : Nat) :
    (fun t => instrsOf (stimulus (params cfg dataWidth pcW) idle t)) =
      Mealy.afterIdle idle (noInstrs cfg) (mainRun cfg) := by
  funext t
  rw [stimulus, Mealy.afterIdle, Mealy.afterIdle]
  split
  · exact instrsOf_idlePorts
  · exact instrsOf_loadedPorts hR

theorem regsInRange_stimulus (hR : 2 ≤ cfg.regs) (idle t : Nat) :
    RegsInRange (stimulus (params cfg dataWidth pcW) idle t) := by
  intro w hw hhas
  rw [stimulus, Mealy.afterIdle] at hhas ⊢
  by_cases hidle : t < idle
  · rw [if_pos hidle] at hhas
    have hnone : (idlePorts : SmIn (params cfg dataWidth pcW)).warpHasInstr.getD w false = false :=
      getD_replicate w false
    rw [hnone] at hhas
    exact absurd hhas Bool.false_ne_true
  · rw [if_neg hidle, (loadedPorts_getD hw).2, toNat_src1 hR]
    have hzero : (makeDepInstr : Rtl.InstrMeta (params cfg dataWidth pcW)).src0.toNat = 0 ∧
        (makeDepInstr : Rtl.InstrMeta (params cfg dataWidth pcW)).dst.toNat = 0 :=
      ⟨BitVec.toNat_zero, BitVec.toNat_zero⟩
    rw [hzero.1, hzero.2]
    show 0 < cfg.regs ∧ 1 < cfg.regs ∧ 0 < cfg.regs
    omega

variable (hW : 2 ≤ cfg.warps) (hL : 1 ≤ cfg.execLatency) (hR : 2 ≤ cfg.regs) (idle : Nat)

include hW hL hR

/-- The signals that sort a cycle, read off the simulator. -/
theorem stimulus_signals (t : Nat) :
    let u := Mealy.afterIdle idle (noInstrs cfg) (mainRun cfg)
    issuedAt (stimulus (params cfg dataWidth pcW) idle) t =
        (((MiniSM.machine cfg).stateAt u t).issuedWarp (u t)).isSome ∧
      blockedAt (stimulus (params cfg dataWidth pcW) idle) t =
        (List.range cfg.warps).any (((MiniSM.machine cfg).stateAt u t).held (u t)) := by
  intro u
  have hrange : ∀ t, RegsInRange (stimulus (params cfg dataWidth pcW) idle t) :=
    regsInRange_stimulus hR idle
  have hu : ∀ t, instrsOf (stimulus (params cfg dataWidth pcW) idle t) = u t :=
    congrFun (instrsOf_stimulus hR idle)
  have ht := tied_stateAt hW hL hrange t
  rw [instrsOf_stimulus hR idle] at ht
  have hin : InRange (u t) := hu t ▸ inRange_instrsOf (hrange t)
  have hsame : SameInstrs (u t) (stimulus (params cfg dataWidth pcW) idle t) :=
    hu t ▸ sameInstrs_instrsOf _
  exact ⟨issueValid_eq ht hin hsame, scoreboardBlocked_eq ht hin hsame⟩

/-- In an idle cycle nothing is issued and nothing is blocked. -/
theorem stimulus_idle {t : Nat} (ht : t < idle) :
    issuedAt (stimulus (params cfg dataWidth pcW) idle) t = false ∧
      blockedAt (stimulus (params cfg dataWidth pcW) idle) t = false := by
  obtain ⟨hissued, hblocked⟩ := @stimulus_signals cfg dataWidth pcW hW hL hR idle t
  have hnone : Mealy.afterIdle idle (noInstrs cfg) (mainRun cfg) t = noInstrs cfg := if_pos ht
  rw [hissued, hblocked, hnone, MiniSM.issuedWarp_noInstrs]
  refine ⟨rfl, ?_⟩
  rw [List.any_eq_false]
  intro w _
  rw [MiniSM.held_noInstrs]
  exact Bool.false_ne_true

/-- Once loaded, the SM does what the simulator does from the start. -/
theorem stimulus_loaded (t : Nat) :
    issuedAt (stimulus (params cfg dataWidth pcW) idle) (idle + t) =
        ((MiniSM.machine cfg).outAt (mainRun cfg) t).issuedWarp.isSome ∧
      blockedAt (stimulus (params cfg dataWidth pcW) idle) (idle + t) =
        (List.range cfg.warps).any
          (((MiniSM.machine cfg).stateAt (mainRun cfg) t).held (Cpp.rawHeavy cfg)) := by
  obtain ⟨hissued, hblocked⟩ :=
    @stimulus_signals cfg dataWidth pcW hW hL hR idle (idle + t)
  have hlike := MiniSM.likewise_afterIdle (mainRun cfg) idle t
  rw [hissued, hblocked, Mealy.afterIdle_add, ← hlike.issuedWarp_eq, ← hlike.held_eq]
  exact ⟨rfl, rfl⟩

theorem countP_issued_stimulus (n : Nat) :
    (List.range n).countP (issuedAt (stimulus (params cfg dataWidth pcW) idle)) =
      roundIssues cfg.warps (period cfg) (n - idle) := by
  rw [← MiniSM.countP_mainRun (Nat.le_of_succ_le hW) hL hR]
  exact countP_range_delayed
    (fun t ht => (@stimulus_idle cfg dataWidth pcW hW hL hR idle t ht).1)
    (fun t => (@stimulus_loaded cfg dataWidth pcW hW hL hR idle t).1) n

/-- Once loaded, a cycle without an issue is a data hazard. -/
theorem countP_stall_stimulus (n : Nat) :
    (List.range n).countP (fun t => !issuedAt (stimulus (params cfg dataWidth pcW) idle) t &&
        blockedAt (stimulus (params cfg dataWidth pcW) idle) t) =
      n - idle - roundIssues cfg.warps (period cfg) (n - idle) := by
  rw [← MiniSM.countP_stall_mainRun (Nat.le_of_succ_le hW) hL hR]
  refine countP_range_delayed (fun t ht => ?_) (fun t => ?_) n
  · rw [(@stimulus_idle cfg dataWidth pcW hW hL hR idle t ht).2, Bool.and_false]
  · obtain ⟨hissued, hblocked⟩ := @stimulus_loaded cfg dataWidth pcW hW hL hR idle t
    rw [hissued, hblocked, Option.not_isSome]

/-- The counters after `idle` idle cycles and `work` cycles of the workload. -/
theorem counters_stimulus (work : Nat) :
    let c := ((MiniSmTop.machine (params cfg dataWidth pcW)).stateAt
      (stimulus (params cfg dataWidth pcW) idle) (idle + work)).counters
    let issues := roundIssues cfg.warps (period cfg)
    c.cycleCount = BitVec.ofNat 32 (idle + work) ∧
      c.issueCount = BitVec.ofNat 32 (issues work) ∧
      c.cyclesWithIssue = BitVec.ofNat 32 (issues work) ∧
      c.stallDataHazard = BitVec.ofNat 32 (work - issues work) ∧
      c.stallNoReadyWarp = BitVec.ofNat 32 idle ∧
      c.stallStructural = 0 ∧ c.stallMemoryLatency = 0 ∧
      c.wbCount = BitVec.ofNat 32 (issues (work - cfg.execLatency)) := by
  intro c issues
  obtain ⟨hcycles, hissues, hissuing, hdata, hnone, hstructural, hmemory, hwb⟩ :=
    MiniSmTop.counters_stateAt (stimulus (params cfg dataWidth pcW) idle) (idle + work)
  have hissued := @countP_issued_stimulus cfg dataWidth pcW hW hL hR idle
  have hstalled := @countP_stall_stimulus cfg dataWidth pcW hW hL hR idle (idle + work)
  have hsplit := countP_range_split (issuedAt (stimulus (params cfg dataWidth pcW) idle))
    (blockedAt (stimulus (params cfg dataWidth pcW) idle)) (idle + work)
  have hle : roundIssues cfg.warps (period cfg) work ≤ work :=
    PerfSweep.roundIssues_le (MiniSM.warps_le_period cfg) work
  rw [Nat.add_sub_cancel_left] at hstalled
  rw [MiniSmTop.countP_wbValid _ hL, hissued] at hwb
  rw [hissued, Nat.add_sub_cancel_left] at hissues hissuing hsplit
  rw [hstalled] at hdata hsplit
  refine ⟨hcycles, hissues, hissuing, hdata, hnone.trans (congrArg _ ?_), hstructural, hmemory,
    hwb.trans (congrArg _ ?_)⟩
  · show _ = idle
    omega
  · show issues (idle + work - cfg.execLatency - idle) = issues (work - cfg.execLatency)
    rw [show idle + work - cfg.execLatency - idle = work - cfg.execLatency by omega]

end Workload

end Sm

/-! ## What `parse_stats` reads -/

namespace PerfSweep

open Cpp (roundIssues)
open Python (Number)
open Rtl (Params Counters MiniSmTop)
open Rtl.TbPerfSweep (statsText stimulus runCycles)

/-- The entries of the file. -/
def rtlKeyed (c : Counters) : List (String × Nat) := c.keyed.take 8

theorem toList_statsText (c : Counters) :
    (statsText c).toList = (rtlKeyed c).flatMap fun e => entryLine e ++ ['\n'] := by
  simp [statsText, Counters.line, rtlKeyed, Counters.keyed, entryLine]

theorem readStats_statsText (c : Counters) :
    readStats (statsText c) = (rtlKeyed c).map fun e => (e.1, .int e.2) := by
  have hkeys : (rtlKeyed c).map Prod.fst = keys.take 8 := rfl
  refine readStats_entries (toList_statsText c) (fun e he => ?_) ?_
  · have hkey : ∀ key ∈ keys.take 8, Plain key := by decide
    apply hkey
    rw [← hkeys]
    exact List.mem_map_of_mem he
  · rw [hkeys]
    decide

/-- The statistics of `idle` idle cycles and `work` cycles of the workload. -/
def rtlStats (warps execLatency idle work : Nat) : Dict String Value :=
  let issues := roundIssues warps (max warps (execLatency + 1))
  let cycles : Rat := (idle + work : Nat)
  [("cycles", .num (.int (idle + work : Nat))), ("instructions", .num (.int (issues work))),
    ("stall_data", .num (.int (work - issues work : Nat))), ("stall_structural", .num (.int 0)),
    ("stall_memory", .num (.int 0)), ("stall_no_warp", .num (.int idle)),
    ("cycles_issuing", .num (.int (issues work))),
    ("wb_count", .num (.int (issues (work - execLatency)))),
    ("ipc", .num (.float (issues work / cycles))),
    ("warp_efficiency", .num (.float (100 * (issues work / cycles)))),
    ("stall_breakdown", .dict
      [("data_hazard", .float (100 * ((work - issues work : Nat) / cycles))),
        ("structural", .float 0), ("memory_latency", .float 0),
        ("no_ready_warp", .float (100 * (idle / cycles)))])]

section Tb

variable {p : Params}

/-- The counters as the file has them. -/
theorem rtlKeyed_testbench (hW : 2 ≤ p.warps) (hL : 1 ≤ p.execLatency) (hR : 2 ≤ p.regs)
    {idle work : Nat} (hlt : idle + work < 2 ^ 32) :
    let issues := roundIssues p.warps (max p.warps (p.execLatency + 1))
    rtlKeyed ((MiniSmTop.machine p).stateAt (stimulus p idle) (idle + work)).counters =
      [("cycles", idle + work), ("instructions", issues work),
        ("stall_data", work - issues work), ("stall_structural", 0), ("stall_memory", 0),
        ("stall_no_warp", idle), ("cycles_issuing", issues work),
        ("wb_count", issues (work - p.execLatency))] := by
  intro issues
  have hcounters := @Sm.counters_stimulus (Sm.configOf p) p.dataWidth p.pcW hW hL hR idle work
  change (let c := ((MiniSmTop.machine p).stateAt (stimulus p idle) (idle + work)).counters
    c.cycleCount = BitVec.ofNat 32 (idle + work) ∧
      c.issueCount = BitVec.ofNat 32 (issues work) ∧
      c.cyclesWithIssue = BitVec.ofNat 32 (issues work) ∧
      c.stallDataHazard = BitVec.ofNat 32 (work - issues work) ∧
      c.stallNoReadyWarp = BitVec.ofNat 32 idle ∧
      c.stallStructural = 0 ∧ c.stallMemoryLatency = 0 ∧
      c.wbCount = BitVec.ofNat 32 (issues (work - p.execLatency))) at hcounters
  obtain ⟨hcycles, hissues, hissuing, hdata, hnone, hstructural, hmemory, hwb⟩ := hcounters
  have hle : ∀ k, issues k ≤ k := roundIssues_le (Nat.le_max_left _ _)
  have hwork := hle work
  have hback := hle (work - p.execLatency)
  have hval : ∀ k, k ≤ idle + work → (BitVec.ofNat 32 k).toNat = k := fun k hk => by
    rw [BitVec.toNat_ofNat, Nat.mod_eq_of_lt (Nat.lt_of_le_of_lt hk hlt)]
  rw [rtlKeyed, Counters.keyed, hcycles, hissues, hissuing, hdata, hnone, hstructural, hmemory, hwb,
    hval _ (Nat.le_refl _), hval (issues work) (by omega), hval (work - issues work) (by omega),
    hval idle (by omega), hval (issues (work - p.execLatency)) (by omega)]
  rfl

theorem derive_entries {cycles issues data idle wb : Nat} (hne : cycles ≠ 0) :
    derive ([("cycles", cycles), ("instructions", issues), ("stall_data", data),
        ("stall_structural", 0), ("stall_memory", 0), ("stall_no_warp", idle),
        ("cycles_issuing", issues), ("wb_count", wb)].map fun e => (e.1, Number.int (e.2 : Nat))) =
      .ok [("cycles", .num (.int cycles)), ("instructions", .num (.int issues)),
        ("stall_data", .num (.int data)), ("stall_structural", .num (.int 0)),
        ("stall_memory", .num (.int 0)), ("stall_no_warp", .num (.int idle)),
        ("cycles_issuing", .num (.int issues)), ("wb_count", .num (.int wb)),
        ("ipc", .num (.float (issues / cycles))),
        ("warp_efficiency", .num (.float (100 * (issues / cycles)))),
        ("stall_breakdown", .dict
          [("data_hazard", .float (100 * (data / cycles))), ("structural", .float 0),
            ("memory_latency", .float 0), ("no_ready_warp", .float (100 * (idle / cycles)))])] := by
  have hdiv : ∀ n : Int, (Number.int n).div (.int cycles) =
      .ok (.float ((n : Rat) / ((cycles : Int) : Rat))) := fun n =>
    Number.div_int (Int.natCast_ne_zero.mpr hne)
  have hpos : (Number.int cycles).positive = true :=
    decide_eq_true (Int.natCast_pos.mpr (Nat.pos_of_ne_zero hne))
  simp [derive, Dict.get, Dict.set, hpos, hdiv, percent_float, bind, Except.bind, pure, Except.pure]

/-- The file that `tb_perf_sweep` leaves, as the sweep reads it: the same issues,
stalls and writebacks as the simulator counts in `work` cycles, and the idle
cycles under `no_ready_warp`. -/
theorem parseStats_testbench (hW : 2 ≤ p.warps) (hL : 1 ≤ p.execLatency) (hR : 2 ≤ p.regs)
    {idle work : Nat} (hpos : 1 ≤ idle + work) (hlt : idle + work < 2 ^ 32) :
    parseStats (statsText ((MiniSmTop.machine p).stateAt (stimulus p idle)
        (idle + work)).counters) =
      .ok (rtlStats p.warps p.execLatency idle work) := by
  rw [parseStats, readStats_statsText, rtlKeyed_testbench hW hL hR hlt]
  exact derive_entries (by omega)

/-- Two idle edges and all but the last edge of the run, for two warps over four
stages. -/
theorem parseStats_testbench_two_warps :
    parseStats (statsText ((MiniSmTop.machine { warps := 2 }).stateAt
        (stimulus { warps := 2 } 2) (2 + (runCycles { warps := 2 } - 1))).counters) =
      .ok (rtlStats 2 4 2 247) :=
  @parseStats_testbench { warps := 2 } (by decide) (by decide) (by decide) 2 247 (by decide)
    (by decide)

/-- The counters of `perf_results_rtl/stats_w2_m4.txt`. -/
example : (rtlStats 2 4 2 247).take 8 =
    [("cycles", .num (.int 249)), ("instructions", .num (.int 100)),
      ("stall_data", .num (.int 147)), ("stall_structural", .num (.int 0)),
      ("stall_memory", .num (.int 0)), ("stall_no_warp", .num (.int 2)),
      ("cycles_issuing", .num (.int 100)), ("wb_count", .num (.int 98))] := rfl

end Tb

end PerfSweep
end Simt
