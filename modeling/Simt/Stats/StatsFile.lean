import Simt.Cpp.Types
import Simt.Lib.Dict
import Simt.Stats.Python

/-
The statistics file: `PerfCounters::write_file` of `simt_types.cpp`, which writes
it, and `parse_stats` of `perf_sweep.py`, which reads it.
-/

namespace Simt

/-! ## `PerfCounters::write_file` -/

namespace Cpp
namespace PerfCounters

/-- `f << key << value << "\n"`. -/
def line (key : String) (value : BitVec 64) : String := key ++ toString value.toNat ++ "\n"

/-- The text written to a file that could be opened. -/
def writeFile (c : PerfCounters) : String :=
  line "cycles=" c.cycles ++
  line "instructions=" c.instructions ++
  line "stall_data=" c.stallData ++
  line "stall_structural=" c.stallStructural ++
  line "stall_memory=" c.stallMemory ++
  line "stall_no_warp=" c.stallNoWarp ++
  line "cycles_issuing=" c.cyclesIssuing ++
  line "wb_count=" c.wbCount ++
  line "total_diverge_events=" c.divergeEvents ++
  line "masked_thread_cycles=" c.maskedThreadCycles

end PerfCounters
end Cpp

/-! ## `parse_stats` -/

namespace PerfSweep

open Python (Number Error strip readInt readFloat)

inductive Value
  | num (x : Number)
  | dict (d : Dict String Number)

/-- One round of the loop over the lines.  A value that is no number is
skipped. -/
def readLine (stats : Dict String Number) (line : List Char) : Dict String Number :=
  match Text.cut '=' (strip line) with
  | some (key, val) =>
    match readInt (strip val) with
    | some n => stats.set (String.ofList (strip key)) (.int n)
    | none =>
      match readFloat (strip val) with
      | some x => stats.set (String.ofList (strip key)) x
      | none => stats
  | none => stats

/-- The loop over the lines of an open file. -/
def readStats (text : String) : Dict String Number :=
  (Text.lines (Text.universal text.toList)).foldl readLine []

/-- The entries computed from the counters.  Those of `stall_breakdown` divide
by `cycles` without a guard. -/
def derive (stats : Dict String Number) : Except Error (Dict String Value) := do
  let cycles := (stats.get "cycles").getD (.int 1)
  let instrs := (stats.get "instructions").getD (.int 0)
  let issuing := (stats.get "cycles_issuing").getD (.int 0)
  let ipc ← if cycles.positive then instrs.div cycles else pure (.float 0)
  let warpEfficiency ←
    if cycles.positive then (return (← issuing.div cycles).percent) else pure (.float 0)
  let share (key : String) : Except Error Number := do
    return (← ((stats.get key).getD (.int 0)).div cycles).percent
  let dataHazard ← share "stall_data"
  let structural ← share "stall_structural"
  let memoryLatency ← share "stall_memory"
  let noReadyWarp ← share "stall_no_warp"
  let values : Dict String Value := stats.map fun e => (e.1, .num e.2)
  let values := values.set "ipc" (.num ipc)
  let values := values.set "warp_efficiency" (.num warpEfficiency)
  return values.set "stall_breakdown" (.dict
    [("data_hazard", dataHazard), ("structural", structural),
      ("memory_latency", memoryLatency), ("no_ready_warp", noReadyWarp)])

def parseStats (text : String) : Except Error (Dict String Value) := derive (readStats text)

end PerfSweep
end Simt
