import Simt.Cpp.Components
import Simt.Lib.Mealy

/-
`mini_sm.cpp`, and the workload of `main.cpp`.
-/

namespace Simt
namespace Cpp

structure TickOutput where
  issuedWarp : Option Nat
  writeback : Option WbResult
deriving DecidableEq

structure MiniSM (cfg : Config) where
  scoreboard : Scoreboard cfg
  warpTable : WarpTable cfg
  scheduler : WarpScheduler cfg
  execPipe : ExecPipe cfg
  counters : PerfCounters

/-- One pending instruction, or none, for each warp. -/
abbrev WarpInstrs (cfg : Config) := Vector (Option InstrMeta) cfg.warps

namespace MiniSM

variable {cfg : Config}

/-- The constructor. -/
def fresh (cfg : Config) : MiniSM cfg where
  scoreboard := Scoreboard.fresh cfg
  warpTable := WarpTable.fresh cfg
  scheduler := WarpScheduler.fresh cfg
  execPipe := ExecPipe.fresh cfg
  counters := {}

/-! ### Step 1: eligibility from the current state -/

def hasInstr (warpInstrs : WarpInstrs cfg) : Vector Bool cfg.warps := warpInstrs.map Option.isSome

def ready (sm : MiniSM cfg) : Vector Bool cfg.warps := Vector.ofFn fun w => sm.warpTable.isReady w

def canIssueVec (sm : MiniSM cfg) (warpInstrs : WarpInstrs cfg) : Vector Bool cfg.warps :=
  Vector.ofFn fun w =>
    match warpInstrs.getD w none with
    | some m => sm.scoreboard.canIssue w m.src0 m.src1
    | none => false

/-! ### Step 2: the scheduler selects -/

def issuedWarp (sm : MiniSM cfg) (warpInstrs : WarpInstrs cfg) : Option Nat :=
  sm.scheduler.select (hasInstr warpInstrs) sm.ready (sm.canIssueVec warpInstrs)

/-! ### Step 4: register updates -/

/-- `if (wb && wb->has_dst)`. -/
def applyWriteback (sb : Scoreboard cfg) : Option WbResult → Scoreboard cfg
  | some e => if e.hasDst then sb.clear e.warpId e.dst else sb
  | none => sb

/-- The instruction of the issued warp.  The code dereferences an optional that
`has_instr` has found full. -/
def issuedInstr (warpInstrs : WarpInstrs cfg) (w : Nat) : InstrMeta :=
  (warpInstrs.getD w none).getD {}

/-- `if (issued_warp)`, on the state in which the writeback is applied and the
pipeline shifted. -/
def applyIssue (sm : MiniSM cfg) (warpInstrs : WarpInstrs cfg) : Option Nat → MiniSM cfg
  | some w =>
    let m := issuedInstr warpInstrs w
    { sm with
      scoreboard := if m.hasDst then sm.scoreboard.markBusy w m.dst else sm.scoreboard
      execPipe := sm.execPipe.push ⟨w, m.dst, m.hasDst⟩
      scheduler := sm.scheduler.advance w }
  | none => sm

/-! ### Step 5: counters -/

/-- The loop that classifies a cycle without an issue: whether some warp is held
by the scoreboard, and whether any warp had work. -/
def classify (hasInstr ready canIssueVec : Vector Bool cfg.warps) : Bool × Bool :=
  (List.range cfg.warps).foldl
    (fun (anyDataStall, anyWork) w =>
      if hasInstr.getD w false && ready.getD w false then
        (if canIssueVec.getD w false then anyDataStall else true, true)
      else (anyDataStall, anyWork))
    (false, false)

def countIssue (c : PerfCounters) (issuedWarp : Option Nat) (anyDataStall anyWork : Bool) :
    PerfCounters :=
  if issuedWarp.isSome then
    { c with instructions := c.instructions + 1, cyclesIssuing := c.cyclesIssuing + 1 }
  else if anyDataStall then { c with stallData := c.stallData + 1 }
  else if !anyWork then { c with stallNoWarp := c.stallNoWarp + 1 }
  else c

def countCycle (c : PerfCounters) (wb : Option WbResult) : PerfCounters :=
  { c with
    wbCount := if wb.isSome then c.wbCount + 1 else c.wbCount
    cycles := c.cycles + 1 }

/-- `MiniSM::tick`. -/
def tick (sm : MiniSM cfg) (warpInstrs : WarpInstrs cfg) : TickOutput × MiniSM cfg :=
  let hasInstr := hasInstr warpInstrs
  let ready := sm.ready
  let canIssueVec := sm.canIssueVec warpInstrs
  let issued := sm.issuedWarp warpInstrs
  let (wb, pipe) := sm.execPipe.tick
  let sm := { sm with scoreboard := applyWriteback sm.scoreboard wb, execPipe := pipe }
  let sm := sm.applyIssue warpInstrs issued
  let (anyDataStall, anyWork) := classify hasInstr ready canIssueVec
  let counters := countCycle (countIssue sm.counters issued anyDataStall anyWork) wb
  (⟨issued, wb⟩, { sm with counters := counters })

/-- `MiniSM::reset`. -/
def reset (sm : MiniSM cfg) : MiniSM cfg where
  scoreboard := sm.scoreboard.reset
  warpTable := sm.warpTable.reset
  scheduler := sm.scheduler.reset
  execPipe := sm.execPipe.reset
  counters := {}

theorem reset_eq_fresh (sm : MiniSM cfg) : sm.reset = fresh cfg := rfl

def machine (cfg : Config) : Mealy (MiniSM cfg) (WarpInstrs cfg) TickOutput where
  init := fresh cfg
  next sm warpInstrs := (sm.tick warpInstrs).2
  out sm warpInstrs := (sm.tick warpInstrs).1

end MiniSM

/-! ## `main` -/

/-- Every warp presents `r0 + r1 -> r0` in every cycle. -/
def rawHeavy (cfg : Config) : WarpInstrs cfg :=
  Vector.replicate _ (some { src0 := 0, src1 := 1, dst := 0, hasDst := true })

end Cpp
end Simt
