import Simt.Cpp.MiniSM
import Simt.Stats.StatsFile

/-
What `parse_stats` makes of a file that `write_file` wrote.

Every line comes back as its key and its counter, for any list of plain keys.
The derived entries are guarded against a run of no cycle except for the stall
breakdown, so `parse_stats` fails on the statistics of such a run.
-/

namespace Simt

namespace Cpp

/-- The counters under the keys they are written with. -/
def PerfCounters.keyed (c : PerfCounters) : List (String × Nat) :=
  [("cycles", c.cycles.toNat), ("instructions", c.instructions.toNat),
    ("stall_data", c.stallData.toNat), ("stall_structural", c.stallStructural.toNat),
    ("stall_memory", c.stallMemory.toNat), ("stall_no_warp", c.stallNoWarp.toNat),
    ("cycles_issuing", c.cyclesIssuing.toNat), ("wb_count", c.wbCount.toNat),
    ("total_diverge_events", c.divergeEvents.toNat),
    ("masked_thread_cycles", c.maskedThreadCycles.toNat)]

end Cpp

namespace PerfSweep

open Cpp (PerfCounters)
open Python (Number Error strip readInt isSpace)

/-! ## The lines -/

/-- A key that neither `strip` nor the split at `=` changes. -/
def Plain (key : String) : Prop := ∀ c ∈ key.toList, c ≠ '=' ∧ isSpace c = false

instance (key : String) : Decidable (Plain key) := List.decidableBAll _ _

/-- A line without its end. -/
def entryLine (e : String × Nat) : List Char := e.1.toList ++ '=' :: Nat.toDigits 10 e.2

theorem isSpace_entryLine {e : String × Nat} (h : Plain e.1) :
    ∀ c ∈ entryLine e, isSpace c = false := by
  intro c hc
  rcases List.mem_append.mp hc with hc | hc
  · exact (h c hc).2
  · rcases List.mem_cons.mp hc with rfl | hc
    · decide
    · exact Python.isSpace_of_isDigit (Nat.isDigit_of_mem_toDigits (by decide) (by decide) hc)

theorem not_mem_entryLine {e : String × Nat} (h : Plain e.1) {c : Char} (hc : isSpace c = true) :
    c ∉ entryLine e := by
  intro hmem
  rw [isSpace_entryLine h c hmem] at hc
  exact Bool.false_ne_true hc

theorem strip_entryLine {e : String × Nat} (h : Plain e.1) : strip (entryLine e) = entryLine e :=
  Text.trim_eq_self (isSpace_entryLine h)

theorem cut_entryLine {e : String × Nat} (h : Plain e.1) :
    Text.cut '=' (entryLine e) = some (e.1.toList, Nat.toDigits 10 e.2) :=
  Text.cut_append (fun hmem => (h _ hmem).1 rfl) _

theorem readLine_entryLine {e : String × Nat} (h : Plain e.1) (stats : Dict String Number) :
    readLine stats (entryLine e) = stats.set e.1 (.int e.2) := by
  have hkey : strip e.1.toList = e.1.toList := Text.trim_eq_self fun c hc => (h c hc).2
  have hval : strip (Nat.toDigits 10 e.2) = Nat.toDigits 10 e.2 :=
    Text.trim_eq_self fun c hc => isSpace_entryLine h c
      (List.mem_append_right _ (List.mem_cons_of_mem _ hc))
  rw [readLine, strip_entryLine h, cut_entryLine h]
  dsimp only
  rw [hval, Python.readInt_toDigits, hkey, String.ofList_toList]

theorem lines_entries {es : List (String × Nat)} (h : ∀ e ∈ es, Plain e.1) :
    Text.lines (Text.universal (es.flatMap fun e => entryLine e ++ ['\n'])) =
      es.map entryLine := by
  have hcr : '\r' ∉ es.flatMap fun e => entryLine e ++ ['\n'] := by
    intro hmem
    obtain ⟨e, he, hc⟩ := List.mem_flatMap.mp hmem
    rcases List.mem_append.mp hc with hc | hc
    · exact not_mem_entryLine (h e he) (by decide) hc
    · exact absurd hc (by decide)
  rw [Text.universal_eq_self hcr]
  clear hcr
  induction es with
  | nil => rfl
  | cons e es ih =>
    obtain ⟨he, hes⟩ := List.forall_mem_cons.mp h
    rw [List.flatMap_cons, List.append_assoc, List.singleton_append,
      Text.lines_append (not_mem_entryLine he (by decide)), ih hes, List.map_cons]

theorem foldl_readLine {es : List (String × Nat)} (h : ∀ e ∈ es, Plain e.1)
    (stats : Dict String Number) :
    (es.map entryLine).foldl readLine stats =
      (es.map fun e => (e.1, Number.int e.2)).foldl (fun d e => Dict.set e.1 e.2 d) stats := by
  induction es generalizing stats with
  | nil => rfl
  | cons e es ih =>
    obtain ⟨he, hes⟩ := List.forall_mem_cons.mp h
    rw [List.map_cons, List.foldl_cons, readLine_entryLine he, ih hes]
    rfl

/-- A file of entries with different keys comes back entry by entry. -/
theorem readStats_entries {text : String} {es : List (String × Nat)}
    (htext : text.toList = es.flatMap fun e => entryLine e ++ ['\n'])
    (h : ∀ e ∈ es, Plain e.1) (hnodup : (es.map Prod.fst).Nodup) :
    readStats text = es.map fun e => (e.1, .int e.2) := by
  rw [readStats, htext, lines_entries h, foldl_readLine h, Dict.foldl_set, List.nil_append]
  rw [List.nil_append, List.map_map]
  exact hnodup

/-! ## The file of the counters -/

theorem toList_writeFile (c : PerfCounters) :
    c.writeFile.toList = c.keyed.flatMap fun e => entryLine e ++ ['\n'] := by
  simp [PerfCounters.writeFile, PerfCounters.line, PerfCounters.keyed, entryLine]

/-- The keys of `write_file`. -/
def keys : List String :=
  ["cycles", "instructions", "stall_data", "stall_structural", "stall_memory", "stall_no_warp",
    "cycles_issuing", "wb_count", "total_diverge_events", "masked_thread_cycles"]

theorem fst_keyed (c : PerfCounters) : c.keyed.map Prod.fst = keys := rfl

theorem nodup_keys : keys.Nodup := by decide

theorem plain_of_keys {es : List (String × Nat)} (h : es.map Prod.fst = keys) :
    ∀ e ∈ es, Plain e.1 := by
  have hkeys : ∀ key ∈ keys, Plain key := by decide
  intro e he
  apply hkeys
  rw [← h]
  exact List.mem_map_of_mem he

theorem readStats_writeFile (c : PerfCounters) :
    readStats c.writeFile = c.keyed.map fun e => (e.1, .int e.2) := by
  refine readStats_entries (toList_writeFile c) (plain_of_keys (fst_keyed c)) ?_
  rw [fst_keyed]
  exact nodup_keys

/-! ## The derived entries -/

/-- `a / b`, and 0 when `b` is. -/
def ratio (a b : BitVec 64) : Rat := (a.toNat : Rat) / (b.toNat : Rat)

/-- The counters come back under their keys, with the ratios taken from them. -/
def RoundTrips (c : PerfCounters) : Prop :=
  ∃ stats, parseStats c.writeFile = .ok stats ∧
    (∀ e ∈ c.keyed, stats.get e.1 = some (.num (.int e.2))) ∧
    stats.get "ipc" = some (.num (.float (ratio c.instructions c.cycles))) ∧
    stats.get "warp_efficiency" =
      some (.num (.float (100 * ratio c.cyclesIssuing c.cycles))) ∧
    stats.get "stall_breakdown" = some (.dict
      [("data_hazard", .float (100 * ratio c.stallData c.cycles)),
        ("structural", .float (100 * ratio c.stallStructural c.cycles)),
        ("memory_latency", .float (100 * ratio c.stallMemory c.cycles)),
        ("no_ready_warp", .float (100 * ratio c.stallNoWarp c.cycles))])

/-- The division that the stall breakdown does not guard. -/
theorem parseStats_no_cycles {c : PerfCounters} (h : c.cycles = 0) :
    parseStats c.writeFile = .error .zeroDivision := by
  rw [parseStats, readStats_writeFile, PerfCounters.keyed, h]
  rfl

theorem div_percent {a b : BitVec 64} (hb : b ≠ 0) :
    (Number.int a.toNat).div (.int b.toNat) = .ok (.float (ratio a b)) := by
  have hne : (b.toNat : Int) ≠ 0 := by
    intro h
    exact hb (BitVec.eq_of_toNat_eq (Int.ofNat_eq_zero.mp h))
  rw [Number.div_int hne]
  rfl

theorem percent_float (q : Rat) : (Number.float q).percent = .float (100 * q) := by
  rw [Number.percent, mul_comm]

/-- The dictionary read from the file of a run with a cycle. -/
def expected (c : PerfCounters) : Dict String Value :=
  (c.keyed.map fun e => (e.1, .num (.int e.2))) ++
    [("ipc", .num (.float (ratio c.instructions c.cycles))),
      ("warp_efficiency", .num (.float (100 * ratio c.cyclesIssuing c.cycles))),
      ("stall_breakdown", .dict
        [("data_hazard", .float (100 * ratio c.stallData c.cycles)),
          ("structural", .float (100 * ratio c.stallStructural c.cycles)),
          ("memory_latency", .float (100 * ratio c.stallMemory c.cycles)),
          ("no_ready_warp", .float (100 * ratio c.stallNoWarp c.cycles))])]

theorem parseStats_cycles {c : PerfCounters} (h : c.cycles ≠ 0) :
    parseStats c.writeFile = .ok (expected c) := by
  have hdiv := fun a => div_percent (a := a) h
  have hpos : (Number.int c.cycles.toNat).positive = true := by
    have hne : c.cycles.toNat ≠ 0 := fun hzero => h (BitVec.eq_of_toNat_eq hzero)
    exact decide_eq_true (by omega)
  rw [parseStats, readStats_writeFile, expected, PerfCounters.keyed]
  simp [derive, Dict.get, Dict.set, hpos, hdiv, percent_float, bind, Except.bind, pure,
    Except.pure]

theorem nodup_expected (c : PerfCounters) : ((expected c).map Prod.fst).Nodup := by
  show (keys ++ ["ipc", "warp_efficiency", "stall_breakdown"]).Nodup
  decide

/-- A statistics file comes back whole exactly when the run had a cycle. -/
theorem roundTrips_iff (c : PerfCounters) : RoundTrips c ↔ c.cycles ≠ 0 := by
  constructor
  · intro hx h
    obtain ⟨stats, hok, -⟩ := hx
    rw [parseStats_no_cycles h] at hok
    exact absurd hok (by simp)
  · intro h
    have hget : ∀ {k v}, (k, v) ∈ expected c → (expected c).get k = some v := fun hmem =>
      Dict.get_of_mem (nodup_expected c) hmem
    refine ⟨_, parseStats_cycles h, fun e he => ?_, ?_, ?_, ?_⟩
    · exact hget (List.mem_append_left _
        (List.mem_map_of_mem (f := fun e => (e.1, Value.num (.int e.2))) he))
    · exact hget (List.mem_append_right _ List.mem_cons_self)
    · exact hget (List.mem_append_right _ (List.mem_cons_of_mem _ List.mem_cons_self))
    · exact hget (List.mem_append_right _
        (List.mem_cons_of_mem _ (List.mem_cons_of_mem _ List.mem_cons_self)))

/-- The statistics of a run of no cycle cannot be read. -/
theorem no_cycles_not_read : ¬ RoundTrips (Cpp.MiniSM.fresh {}).counters := by
  intro hx
  obtain ⟨stats, hok, -⟩ := hx
  rw [parseStats_no_cycles rfl] at hok
  exact absurd hok (by simp)

end PerfSweep
end Simt
