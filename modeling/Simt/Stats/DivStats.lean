import Mathlib.Algebra.Order.Field.Rat
import Mathlib.Tactic.Linarith
import Mathlib.Tactic.Positivity
import Simt.Rtl.MiniSmTop
import Simt.Stats.RoundTrip

/-
The divergence statistics: the dump of `tb_divergence_phase4.sv`, and
`parse_div_stats` of `divergence_sweep.py`, which reads it.
-/

namespace Simt

/-! ## The dump -/

namespace Rtl
namespace Counters

/-- `$fwrite(fd, "key=%0d\n", value)`. -/
def line (key : String) (value : BitVec 32) : String := key ++ toString value.toNat ++ "\n"

/-- The text that the testbench writes when it finishes. -/
def dump (c : Counters) : String :=
  line "cycles=" c.cycleCount ++
  line "instructions=" c.issueCount ++
  line "stall_data=" c.stallDataHazard ++
  line "stall_structural=" c.stallStructural ++
  line "stall_memory=" c.stallMemoryLatency ++
  line "stall_no_warp=" c.stallNoReadyWarp ++
  line "cycles_issuing=" c.cyclesWithIssue ++
  line "wb_count=" c.wbCount ++
  line "total_diverge_events=" c.totalDivergeEvents ++
  line "masked_thread_cycles=" c.maskedThreadCycles

/-- The counters under the keys they are written with. -/
def keyed (c : Counters) : List (String × Nat) :=
  [("cycles", c.cycleCount.toNat), ("instructions", c.issueCount.toNat),
    ("stall_data", c.stallDataHazard.toNat), ("stall_structural", c.stallStructural.toNat),
    ("stall_memory", c.stallMemoryLatency.toNat), ("stall_no_warp", c.stallNoReadyWarp.toNat),
    ("cycles_issuing", c.cyclesWithIssue.toNat), ("wb_count", c.wbCount.toNat),
    ("total_diverge_events", c.totalDivergeEvents.toNat),
    ("masked_thread_cycles", c.maskedThreadCycles.toNat)]

end Counters
end Rtl

/-! ## `parse_div_stats` -/

namespace DivergenceSweep

open PerfSweep (entryLine Plain)
open Python (Number Error strip readInt)

/-- One round of the loop over the lines.  The key is not stripped, and a value
that is no integer ends the loop. -/
def readLine (stats : Dict String Int) (line : List Char) : Except Error (Dict String Int) :=
  match Text.cut '=' (strip line) with
  | some (key, val) =>
    match readInt val with
    | some n => .ok (stats.set (String.ofList key) n)
    | none => .error .value
  | none => .ok stats

/-- The loop over the lines of an open file. -/
def readStats (text : String) : Except Error (Dict String Int) :=
  (Text.lines (Text.universal text.toList)).foldlM readLine []

/-- The entries computed from the counters. -/
def derive (stats : Dict String Int) (warpCount : Int) : Except Error (Dict String Number) := do
  let cycles := (stats.get "cycles").getD 1
  let instrs := (stats.get "instructions").getD 0
  let mtc := (stats.get "masked_thread_cycles").getD 0
  let ipc ← if 0 < cycles then (Number.int instrs).div (.int cycles) else pure (.float 0)
  let overhead ←
    if 0 < cycles then (return (← (Number.int mtc).div (.int (cycles * warpCount))).percent)
    else pure (.float 0)
  let values : Dict String Number := stats.map fun e => (e.1, .int e.2)
  let values := values.set "ipc" ipc
  return values.set "divergence_overhead_pct" overhead

def parseDivStats (text : String) (warpCount : Int) : Except Error (Dict String Number) := do
  derive (← readStats text) warpCount

/-! ## Reading a dump -/

theorem readLine_entryLine {e : String × Nat} (h : Plain e.1) (stats : Dict String Int) :
    readLine stats (entryLine e) = .ok (stats.set e.1 e.2) := by
  rw [readLine, PerfSweep.strip_entryLine h, PerfSweep.cut_entryLine h]
  dsimp only
  rw [Python.readInt_toDigits, String.ofList_toList]

theorem foldlM_readLine {es : List (String × Nat)} (h : ∀ e ∈ es, Plain e.1)
    (stats : Dict String Int) :
    (es.map entryLine).foldlM readLine stats =
      .ok ((es.map fun e => (e.1, (e.2 : Int))).foldl (fun d e => Dict.set e.1 e.2 d) stats) := by
  induction es generalizing stats with
  | nil => rfl
  | cons e es ih =>
    obtain ⟨he, hes⟩ := List.forall_mem_cons.mp h
    rw [List.map_cons, List.foldlM_cons, readLine_entryLine he]
    exact ih hes _

theorem toList_dump (c : Rtl.Counters) :
    c.dump.toList = c.keyed.flatMap fun e => entryLine e ++ ['\n'] := by
  simp [Rtl.Counters.dump, Rtl.Counters.line, Rtl.Counters.keyed, entryLine]

theorem fst_keyed (c : Rtl.Counters) : c.keyed.map Prod.fst = PerfSweep.keys := rfl

theorem readStats_dump (c : Rtl.Counters) :
    readStats c.dump = .ok (c.keyed.map fun e => (e.1, (e.2 : Int))) := by
  have hplain := PerfSweep.plain_of_keys (fst_keyed c)
  rw [readStats, toList_dump, PerfSweep.lines_entries hplain, foldlM_readLine hplain,
    Dict.foldl_set, List.nil_append]
  rw [List.nil_append, List.map_map]
  show (c.keyed.map Prod.fst).Nodup
  rw [fst_keyed]
  exact PerfSweep.nodup_keys

/-! ## The overhead -/

/-- `masked_thread_cycles / (cycles * warp_count) * 100`. -/
def overhead (c : Rtl.Counters) (warpCount : Nat) : Rat :=
  (c.maskedThreadCycles.toNat : Rat) / ((c.cycleCount.toNat : Rat) * warpCount) * 100

/-- The dictionary read from the dump of a run with a cycle. -/
def expected (c : Rtl.Counters) (warpCount : Nat) : Dict String Number :=
  (c.keyed.map fun e => (e.1, .int e.2)) ++
    [("ipc", .float ((c.issueCount.toNat : Rat) / (c.cycleCount.toNat : Rat))),
      ("divergence_overhead_pct", .float (overhead c warpCount))]

section Dump

variable {c : Rtl.Counters} (hc : c.cycleCount ≠ 0)

include hc

theorem cycles_pos : 0 < c.cycleCount.toNat := by
  have hne : c.cycleCount.toNat ≠ 0 := fun hzero => hc (BitVec.eq_of_toNat_eq hzero)
  exact Nat.pos_of_ne_zero hne

theorem cycles_ne_zero : (c.cycleCount.toNat : Int) ≠ 0 :=
  (Int.natCast_pos.mpr (cycles_pos hc)).ne'

theorem parseDivStats_dump {warpCount : Nat} (hw : 1 ≤ warpCount) :
    parseDivStats c.dump warpCount = .ok (expected c warpCount) := by
  have hpos := cycles_pos hc
  have hcycles := cycles_ne_zero hc
  have hprod : (c.cycleCount.toNat : Int) * warpCount ≠ 0 :=
    mul_ne_zero hcycles (Int.natCast_pos.mpr hw).ne'
  rw [parseDivStats, readStats_dump, expected, Rtl.Counters.keyed]
  simp [derive, Dict.get, Dict.set, hpos, Number.div_int hcycles, Number.div_int hprod,
    Number.percent, overhead, bind, Except.bind, pure, Except.pure]

theorem parseDivStats_no_warps : parseDivStats c.dump (0 : Nat) = .error .zeroDivision := by
  have hpos := cycles_pos hc
  have hcycles := cycles_ne_zero hc
  have hzero : (Number.int c.maskedThreadCycles.toNat).div (.int 0) = .error .zeroDivision := rfl
  rw [parseDivStats, readStats_dump, Rtl.Counters.keyed]
  simp [derive, Dict.get, hpos, Number.div_int hcycles, hzero, bind, Except.bind]

end Dump

example : parseDivStats "cycles=3\nmasked_thread_cycles=14\n" 4 =
    .ok [("cycles", .int 3), ("masked_thread_cycles", .int 14), ("ipc", .float 0),
      ("divergence_overhead_pct", .float (350 / 3))] := by
  decide +kernel

theorem nodup_expected (c : Rtl.Counters) (warpCount : Nat) :
    ((expected c warpCount).map Prod.fst).Nodup := by
  show (PerfSweep.keys ++ ["ipc", "divergence_overhead_pct"]).Nodup
  decide

theorem get_overhead (c : Rtl.Counters) (warpCount : Nat) :
    (expected c warpCount).get "divergence_overhead_pct" = some (.float (overhead c warpCount)) :=
  Dict.get_of_mem (nodup_expected c warpCount)
    (List.mem_append_right _ (List.mem_cons_of_mem _ List.mem_cons_self))

/-- The reader reports an overhead from 0 to 100. -/
def TrueFraction (text : String) (warpCount : Nat) : Prop :=
  ∃ stats q, parseDivStats text warpCount = .ok stats ∧
    stats.get "divergence_overhead_pct" = some (.float q) ∧ 0 ≤ q ∧ q ≤ 100

theorem overhead_le_iff {c : Rtl.Counters} (hc : c.cycleCount ≠ 0) {warpCount : Nat}
    (hw : 1 ≤ warpCount) :
    overhead c warpCount ≤ 100 ↔
      c.maskedThreadCycles.toNat ≤ c.cycleCount.toNat * warpCount := by
  have hpos : (0 : Rat) < (c.cycleCount.toNat : Rat) * warpCount :=
    mul_pos (Nat.cast_pos.mpr (cycles_pos hc)) (Nat.cast_pos.mpr hw)
  calc overhead c warpCount ≤ 100
      ↔ (c.maskedThreadCycles.toNat : Rat) / (c.cycleCount.toNat * warpCount) ≤ 1 := by
        rw [overhead]
        constructor <;> intro h <;> linarith
    _ ↔ (c.maskedThreadCycles.toNat : Rat) ≤ c.cycleCount.toNat * warpCount := div_le_one hpos
    _ ↔ c.maskedThreadCycles.toNat ≤ c.cycleCount.toNat * warpCount := by
        rw [← Nat.cast_mul, Nat.cast_le]

/-- The quotient is a fraction exactly when the masked thread-cycles are no more
than the cycles times the warps. -/
theorem trueFraction_dump {c : Rtl.Counters} (hc : c.cycleCount ≠ 0) (warpCount : Nat) :
    TrueFraction c.dump warpCount ↔
      1 ≤ warpCount ∧ c.maskedThreadCycles.toNat ≤ c.cycleCount.toNat * warpCount := by
  by_cases hw : 1 ≤ warpCount
  · rw [and_iff_right hw, ← overhead_le_iff hc hw, TrueFraction, parseDivStats_dump hc hw]
    constructor
    · intro h
      obtain ⟨stats, q, hok, hget, -, hq⟩ := h
      obtain rfl := Except.ok.inj hok
      rw [get_overhead] at hget
      obtain rfl := Number.float.inj (Option.some.inj hget)
      exact hq
    · intro h
      refine ⟨_, _, rfl, get_overhead c warpCount, ?_, h⟩
      rw [overhead]
      positivity
  · obtain rfl : warpCount = 0 := by omega
    refine iff_of_false ?_ fun h => hw h.1
    intro h
    obtain ⟨stats, q, hok, -⟩ := h
    rw [parseDivStats_no_warps hc] at hok
    exact absurd hok (by simp)

end DivergenceSweep
end Simt
