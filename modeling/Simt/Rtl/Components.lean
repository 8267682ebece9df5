import Mathlib.Data.Nat.Log
import Mathlib.Data.Vector.Basic

/-
The clocked components of `mini_sm_top`: `wrap_table.sv`, `scoreboard.sv`,
`warp_scheduler.sv` and `exec_pipe.sv`, with the parameters of
`simt_alu_pkg.sv`.

Flags that come one to a warp or a stage are a `Vector` of `Bool`.
-/

namespace Simt
namespace Rtl

/-- The parameters of `simt_alu_pkg`, with its defaults.  The parameters of every
module are taken to be those of the package, from which the widths of the ids
come. -/
structure Params where
  lanes : Nat := 8
  dataWidth : Nat := 32
  warps : Nat := 4
  regs : Nat := 16
  execLatency : Nat := 4
  pcW : Nat := 16
  pdomDepth : Nat := 8

/-- `$clog2(WARPS)`. -/
def Params.warpIdW (p : Params) : Nat := Nat.clog 2 p.warps

/-- `$clog2(REGS)`. -/
def Params.regIdW (p : Params) : Nat := Nat.clog 2 p.regs

abbrev WarpId (p : Params) := BitVec p.warpIdW

abbrev RegId (p : Params) := BitVec p.regIdW

/-- `instr_meta_t`, as far as `mini_sm_top` reads it. -/
structure InstrMeta (p : Params) where
  src0 : RegId p
  src1 : RegId p
  dst : RegId p
  hasDst : Bool
  sel : BitVec 3

instance (p : Params) : Inhabited (InstrMeta p) := ⟨⟨0, 0, 0, false, 0⟩⟩

variable {p : Params}

/-! ## `warp_table` -/

inductive WarpState
  | ready
  | stalled
deriving DecidableEq

structure WarpTable (p : Params) where
  warpState : Vector WarpState p.warps

namespace WarpTable

def warpReady (t : WarpTable p) : Vector Bool p.warps := t.warpState.map (· == .ready)

def reset : WarpTable p := ⟨Vector.replicate _ .ready⟩

/-- The unblock is assigned first.  A stall of the warp that is unblocked is
ignored. -/
def posedge (t : WarpTable p) (rst stallWarp : Bool) (stallWarpId : WarpId p) (unblockWarp : Bool)
    (unblockWarpId : WarpId p) : WarpTable p :=
  if rst then reset
  else
    let s := if unblockWarp then t.warpState.setIfInBounds unblockWarpId.toNat .ready
      else t.warpState
    ⟨if stallWarp ∧ ¬ (unblockWarp ∧ unblockWarpId = stallWarpId) then
      s.setIfInBounds stallWarpId.toNat .stalled else s⟩

end WarpTable

/-! ## `scoreboard` -/

structure Scoreboard (p : Params) where
  regBusy : Vector (Vector Bool p.regs) p.warps

namespace Scoreboard

def reset : Scoreboard p := ⟨Vector.replicate _ (Vector.replicate _ false)⟩

/-- `reg_busy_q[w][r]`. -/
def read (s : Scoreboard p) (w r : Nat) : Bool :=
  (s.regBusy.getD w (Vector.replicate _ false)).getD r false

/-- `reg_busy_q[w][r] <= b`. -/
def assign (s : Scoreboard p) (w r : Nat) (b : Bool) : Scoreboard p :=
  ⟨s.regBusy.setIfInBounds w
    ((s.regBusy.getD w (Vector.replicate _ false)).setIfInBounds r b)⟩

def canIssue (s : Scoreboard p) (checkSrc0 checkSrc1 : Vector (RegId p) p.warps) :
    Vector Bool p.warps :=
  Vector.ofFn fun w =>
    !(s.read w (checkSrc0.getD w 0).toNat || s.read w (checkSrc1.getD w 0).toNat)

/-- The clear of the writeback comes first, and the set of the issue wins where
both meet. -/
def posedge (s : Scoreboard p) (rst issueFire : Bool) (issueWarpId : WarpId p) (issueDst : RegId p)
    (issueHasDst wbValid : Bool) (wbWarpId : WarpId p) (wbDst : RegId p) (wbHasDst : Bool) :
    Scoreboard p :=
  if rst then reset
  else
    let s := if wbValid && wbHasDst then s.assign wbWarpId.toNat wbDst.toNat false else s
    if issueFire && issueHasDst then s.assign issueWarpId.toNat issueDst.toNat true else s

end Scoreboard

/-! ## `warp_scheduler` -/

structure WarpScheduler (p : Params) where
  rrPtr : WarpId p

namespace WarpScheduler

def reset : WarpScheduler p := ⟨0⟩

/-- `issue_valid` and `issue_warp_id`.  The loop looks at every warp and keeps
the first match. -/
def issue (s : WarpScheduler p) (warpReady warpCanIssue warpHasInstr : Vector Bool p.warps) :
    Bool × WarpId p :=
  (List.range p.warps).foldl
    (fun (issue : Bool × WarpId p) i =>
      let idx := (s.rrPtr.toNat + i) % p.warps
      if !issue.1 && (warpReady.getD idx false && warpCanIssue.getD idx false &&
          warpHasInstr.getD idx false) then
        (true, BitVec.ofNat _ idx)
      else issue)
    (false, 0)

def posedge (s : WarpScheduler p) (rst issueValid : Bool) (issueWarpId : WarpId p) :
    WarpScheduler p :=
  if rst then reset
  else if issueValid then
    ⟨if issueWarpId = BitVec.ofNat _ (p.warps - 1) then 0 else issueWarpId + 1⟩
  else s

end WarpScheduler

/-! ## `exec_pipe` -/

/-- Stage 0 is loaded by the issue and stage `EXEC_LATENCY - 1` is written back.
The metadata of a stage means nothing while its valid bit is low. -/
structure ExecPipe (p : Params) where
  validPipe : Vector Bool p.execLatency
  warpIdPipe : Vector (WarpId p) p.execLatency
  dstPipe : Vector (RegId p) p.execLatency
  hasDstPipe : Vector Bool p.execLatency

/-- `pipe[0] <= x`, and `pipe[i] <= pipe[i-1]` for the stages above. -/
def shiftIn {α : Type} {n : Nat} (x d : α) (pipe : Vector α n) : Vector α n :=
  Vector.ofFn fun i => if i.val = 0 then x else pipe.getD (i.val - 1) d

namespace ExecPipe

def reset : ExecPipe p where
  validPipe := Vector.replicate _ false
  warpIdPipe := Vector.replicate _ 0
  dstPipe := Vector.replicate _ 0
  hasDstPipe := Vector.replicate _ false

def posedge (e : ExecPipe p) (rst issueFire : Bool) (issueWarpId : WarpId p) (issueDst : RegId p)
    (issueHasDst : Bool) : ExecPipe p :=
  if rst then reset
  else
    { validPipe := shiftIn issueFire false e.validPipe
      warpIdPipe := shiftIn issueWarpId 0 e.warpIdPipe
      dstPipe := shiftIn issueDst 0 e.dstPipe
      hasDstPipe := shiftIn issueHasDst false e.hasDstPipe }

def wbValid (e : ExecPipe p) : Bool := e.validPipe.getD (p.execLatency - 1) false

def wbWarpId (e : ExecPipe p) : WarpId p := e.warpIdPipe.getD (p.execLatency - 1) 0

def wbDst (e : ExecPipe p) : RegId p := e.dstPipe.getD (p.execLatency - 1) 0

def wbHasDst (e : ExecPipe p) : Bool := e.hasDstPipe.getD (p.execLatency - 1) false

end ExecPipe

end Rtl
end Simt
