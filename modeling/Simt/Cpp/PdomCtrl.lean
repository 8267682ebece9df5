import Simt.Cpp.Types
import Simt.Lib.Mealy
import Mathlib.Data.Vector.Basic

/-
`pdom_ctrl.h` and `pdom_ctrl.cpp`: the divergence controller of one warp.
-/

namespace Simt
namespace Cpp

structure PdomInput where
  branchFire : Bool := false
  branchCond : BitVec 32 := 0
  reconvergePc : BitVec 32 := 0
  pathDone : Bool := false

instance : Inhabited PdomInput := ⟨{}⟩

structure PdomOutput where
  activeMask : BitVec 32
  stackEmpty : Bool
  stackFull : Bool
  diverged : Bool
deriving DecidableEq

structure StackEntry where
  mask : BitVec 32 := 0
  pc : BitVec 32 := 0
deriving DecidableEq

inductive PdomState
  | run
  | popWait
deriving DecidableEq

/-- The members of `PdomCtrl`.  `stack` is allocated to `pdom_depth` entries and
`sp` counts the valid ones. -/
structure PdomCtrl (cfg : Config) where
  currMask : BitVec 32
  state : PdomState
  stack : Vector StackEntry cfg.pdomDepth
  sp : Int
  popPending : StackEntry

/-- `(1u << lanes) - 1`.  The language leaves a shift by 32 or more undefined;
this is what the x86 shift computes, which reads the count modulo 32. -/
def laneMask (cfg : Config) : BitVec 32 := (1#32 <<< (cfg.lanes % 32)) - 1#32

namespace PdomCtrl

variable {cfg : Config}

/-- The constructor. -/
def fresh (cfg : Config) : PdomCtrl cfg where
  currMask := laneMask cfg
  state := .run
  stack := Vector.replicate cfg.pdomDepth {}
  sp := 0
  popPending := {}

/-- Step 1: the outputs, read before the registers change. -/
def output (c : PdomCtrl cfg) : PdomOutput where
  activeMask := c.currMask
  stackEmpty := decide (c.sp = 0)
  stackFull := decide ((cfg.pdomDepth : Int) ≤ c.sp)
  diverged := decide (0 < c.sp)

/-- Step 2: the lanes that take the branch. -/
def thenMask (c : PdomCtrl cfg) (inp : PdomInput) : BitVec 32 :=
  inp.branchCond &&& c.currMask &&& laneMask cfg

/-- Step 2: the lanes that do not. -/
def elseMask (c : PdomCtrl cfg) (inp : PdomInput) : BitVec 32 :=
  ~~~inp.branchCond &&& c.currMask &&& laneMask cfg

/-- Step 3, `RUN`, `branch_fire`. -/
def takeBranch (c : PdomCtrl cfg) (thenMask elseMask reconvergePc : BitVec 32) : PdomCtrl cfg :=
  if thenMask ≠ 0 ∧ elseMask = 0 then { c with currMask := thenMask }
  else if thenMask = 0 ∧ elseMask ≠ 0 then { c with currMask := elseMask }
  else if thenMask ≠ 0 ∧ elseMask ≠ 0 then
    -- The push is skipped on a full stack and the ELSE lanes go nowhere.
    let c := if c.sp < cfg.pdomDepth then
        { c with
          stack := c.stack.setIfInBounds c.sp.toNat ⟨elseMask, reconvergePc⟩
          sp := c.sp + 1 }
      else c
    { c with currMask := thenMask }
  else c

/-- Step 3, `RUN`, `path_done`. -/
def finishPath (c : PdomCtrl cfg) : PdomCtrl cfg :=
  if 0 < c.sp then
    { c with
      popPending := c.stack.getD (c.sp - 1).toNat {}
      sp := c.sp - 1
      state := .popWait }
  else { c with currMask := laneMask cfg }

/-- `PdomCtrl::tick`. -/
def tick (c : PdomCtrl cfg) (inp : PdomInput) : PdomOutput × PdomCtrl cfg :=
  let out := c.output
  match c.state with
  | .run =>
    let thenMask := c.thenMask inp
    let elseMask := c.elseMask inp
    let c := if inp.branchFire then c.takeBranch thenMask elseMask inp.reconvergePc else c
    let c := if inp.pathDone then c.finishPath else c
    (out, c)
  | .popWait => (out, { c with currMask := c.popPending.mask, state := .run })

/-- `PdomCtrl::reset`.  The stack keeps its old entries. -/
def reset (c : PdomCtrl cfg) : PdomCtrl cfg :=
  { c with currMask := laneMask cfg, state := .run, sp := 0, popPending := {} }

def machine (cfg : Config) : Mealy (PdomCtrl cfg) PdomInput PdomOutput where
  init := fresh cfg
  next c inp := (c.tick inp).2
  out c inp := (c.tick inp).1

end PdomCtrl
end Cpp
end Simt
