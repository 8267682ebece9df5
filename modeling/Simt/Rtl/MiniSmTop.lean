import Simt.Rtl.Alu
import Simt.Rtl.Components
import Simt.Rtl.PdomCtrl

/-
`mini_sm_top.sv`: the SM with one divergence controller for each warp, the ALU
and the performance counters.
-/

namespace Simt
namespace Rtl

abbrev PdomOf (p : Params) := PdomCtrl p.lanes p.pcW p.pdomDepth

/-- The counter registers. -/
structure Counters where
  cycleCount : BitVec 32 := 0
  issueCount : BitVec 32 := 0
  stallDataHazard : BitVec 32 := 0
  stallStructural : BitVec 32 := 0
  stallMemoryLatency : BitVec 32 := 0
  stallNoReadyWarp : BitVec 32 := 0
  cyclesWithIssue : BitVec 32 := 0
  wbCount : BitVec 32 := 0
  totalDivergeEvents : BitVec 32 := 0
  maskedThreadCycles : BitVec 32 := 0
deriving DecidableEq

/-- The input ports, `clk` and `rst` apart. -/
structure SmIn (p : Params) where
  warpHasInstr : Vector Bool p.warps
  warpInstr : Vector (InstrMeta p) p.warps
  warpA : Vector (Operands p.lanes p.dataWidth) p.warps
  warpB : Vector (Operands p.lanes p.dataWidth) p.warps
  warpIsBranch : Vector Bool p.warps
  warpBranchCond : Vector (BitVec p.lanes) p.warps
  warpReconvergePc : Vector (BitVec p.pcW) p.warps
  warpPathDone : Vector Bool p.warps

structure SmOut (p : Params) where
  issueValid : Bool
  issueWarpId : WarpId p
  wbValid : Bool
  wbWarpId : WarpId p
  warpActiveMask : Vector (BitVec p.lanes) p.warps
  warpDiverged : Vector Bool p.warps
  counters : Counters
  alu : AluOut p.lanes p.dataWidth

structure MiniSmTop (p : Params) where
  uWarpTable : WarpTable p
  uScoreboard : Scoreboard p
  uWarpScheduler : WarpScheduler p
  uExecPipe : ExecPipe p
  uPdom : Vector (PdomOf p) p.warps
  counters : Counters

namespace MiniSmTop

variable {p : Params}

/-- The registers after an edge with `rst` high. -/
def reset : MiniSmTop p where
  uWarpTable := WarpTable.reset
  uScoreboard := Scoreboard.reset
  uWarpScheduler := WarpScheduler.reset
  uExecPipe := ExecPipe.reset
  uPdom := Vector.replicate _ PdomCtrl.reset
  counters := {}

/-! ## Combinational signals -/

section Wires

variable (s : MiniSmTop p) (inp : SmIn p)

def warpReady : Vector Bool p.warps := s.uWarpTable.warpReady

def warpCanIssue : Vector Bool p.warps :=
  s.uScoreboard.canIssue (inp.warpInstr.map InstrMeta.src0) (inp.warpInstr.map InstrMeta.src1)

def scoreboardBlocked : Bool :=
  (List.range p.warps).any fun w =>
    inp.warpHasInstr.getD w false && s.warpReady.getD w false && !(s.warpCanIssue inp).getD w false

def issueValid : Bool :=
  (s.uWarpScheduler.issue s.warpReady (s.warpCanIssue inp) inp.warpHasInstr).1

def issueWarpId : WarpId p :=
  (s.uWarpScheduler.issue s.warpReady (s.warpCanIssue inp) inp.warpHasInstr).2

/-- `warp_instr[issue_warp_id]`. -/
def issuedInstr : InstrMeta p := inp.warpInstr.getD (s.issueWarpId inp).toNat default

def warpActiveMask : Vector (BitVec p.lanes) p.warps := s.uPdom.map fun c => c.output.activeMask

def warpDiverged : Vector Bool p.warps := s.uPdom.map fun c => c.output.diverged

/-- The ports of the divergence controller of warp `w`. -/
def pdomIn (w : Nat) : PdomIn p.lanes p.pcW where
  branchFire := s.issueValid inp && inp.warpIsBranch.getD w false &&
    s.issueWarpId inp == BitVec.ofNat _ w
  branchCond := inp.warpBranchCond.getD w 0
  reconvergePc := inp.warpReconvergePc.getD w 0
  pathDone := inp.warpPathDone.getD w false

def alu : AluOut p.lanes p.dataWidth :=
  let id := (s.issueWarpId inp).toNat
  simtAlu (s.issueValid inp) (s.issuedInstr inp).sel (s.warpActiveMask.getD id 0)
    (inp.warpA.getD id (Vector.replicate _ 0)) (inp.warpB.getD id (Vector.replicate _ 0))

def issuedThenMask : BitVec p.lanes :=
  inp.warpBranchCond.getD (s.issueWarpId inp).toNat 0 &&&
    s.warpActiveMask.getD (s.issueWarpId inp).toNat 0

def issuedElseMask : BitVec p.lanes :=
  ~~~inp.warpBranchCond.getD (s.issueWarpId inp).toNat 0 &&&
    s.warpActiveMask.getD (s.issueWarpId inp).toNat 0

/-- `$countones`. -/
def countOnes {w : Nat} (b : BitVec w) : Nat := (List.range w).countP fun i => b.getLsbD i

/-- The sum over the diverged warps. -/
def maskedThisCycle : BitVec 32 :=
  (List.range p.warps).foldl
    (fun sum w =>
      if s.warpDiverged.getD w false then
        sum + BitVec.ofNat 32 (countOnes (~~~(s.warpActiveMask.getD w 0)))
      else sum)
    0

end Wires

/-! ## Registers -/

/-- The counter blocks with `rst` low.  Each right-hand side reads the registers
before the edge. -/
def countersNext (s : MiniSmTop p) (inp : SmIn p) : Counters :=
  let c := s.counters
  let c := { c with cycleCount := c.cycleCount + 1 }
  let c := if s.issueValid inp then
      { c with
        issueCount := c.issueCount + 1
        cyclesWithIssue := c.cyclesWithIssue + 1 }
    else c
  let c := if s.uExecPipe.wbValid then { c with wbCount := c.wbCount + 1 } else c
  let c := if s.issueValid inp = false then
      if s.scoreboardBlocked inp then { c with stallDataHazard := c.stallDataHazard + 1 }
      -- The structural and the memory bucket are guarded by a constant 0.
      else { c with stallNoReadyWarp := c.stallNoReadyWarp + 1 }
    else c
  let c := if s.issueValid inp && inp.warpIsBranch.getD (s.issueWarpId inp).toNat false &&
        s.issuedThenMask inp != 0 && s.issuedElseMask inp != 0 then
      { c with totalDivergeEvents := c.totalDivergeEvents + 1 }
    else c
  { c with maskedThreadCycles := c.maskedThreadCycles + s.maskedThisCycle }

/-- One clock edge of all components. -/
def posedge (s : MiniSmTop p) (rst : Bool) (inp : SmIn p) : MiniSmTop p where
  uWarpTable := s.uWarpTable.posedge rst false 0 false 0
  uScoreboard := s.uScoreboard.posedge rst (s.issueValid inp) (s.issueWarpId inp)
    (s.issuedInstr inp).dst (s.issuedInstr inp).hasDst s.uExecPipe.wbValid s.uExecPipe.wbWarpId
    s.uExecPipe.wbDst s.uExecPipe.wbHasDst
  uWarpScheduler := s.uWarpScheduler.posedge rst (s.issueValid inp) (s.issueWarpId inp)
  uExecPipe := s.uExecPipe.posedge rst (s.issueValid inp) (s.issueWarpId inp)
    (s.issuedInstr inp).dst (s.issuedInstr inp).hasDst
  uPdom := Vector.ofFn fun w =>
    (s.uPdom.getD w PdomCtrl.reset).posedge rst (s.pdomIn inp w)
  counters := if rst then {} else s.countersNext inp

def output (s : MiniSmTop p) (inp : SmIn p) : SmOut p where
  issueValid := s.issueValid inp
  issueWarpId := s.issueWarpId inp
  wbValid := s.uExecPipe.wbValid
  wbWarpId := s.uExecPipe.wbWarpId
  warpActiveMask := s.warpActiveMask
  warpDiverged := s.warpDiverged
  counters := s.counters
  alu := s.alu inp

/-- The module clocked with `rst` low, from the state a reset leaves. -/
def machine (p : Params) : Mealy (MiniSmTop p) (SmIn p) (SmOut p) where
  init := reset
  next s inp := s.posedge false inp
  out s inp := s.output inp

end MiniSmTop
end Rtl
end Simt
