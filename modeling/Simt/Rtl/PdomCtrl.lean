import Simt.Lib.Mealy
import Simt.Rtl.SimtStack

/-
`pdom_ctrl.sv`: the divergence controller of one warp around a `simt_stack`.
-/

namespace Simt
namespace Rtl

inductive PdomState
  | run
  | popWait
deriving DecidableEq

structure PdomIn (lanes pcW : Nat) where
  branchFire : Bool
  branchCond : BitVec lanes
  reconvergePc : BitVec pcW
  pathDone : Bool

instance {lanes pcW : Nat} : Inhabited (PdomIn lanes pcW) := ⟨⟨false, 0, 0, false⟩⟩

structure PdomOut (lanes : Nat) where
  activeMask : BitVec lanes
  stackEmpty : Bool
  stackFull : Bool
  diverged : Bool
deriving DecidableEq

structure PdomCtrl (lanes pcW depth : Nat) where
  state : PdomState
  currMask : BitVec lanes
  uStack : SimtStack lanes pcW depth

namespace PdomCtrl

variable {lanes pcW depth : Nat}

def thenMask (c : PdomCtrl lanes pcW depth) (inp : PdomIn lanes pcW) : BitVec lanes :=
  inp.branchCond &&& c.currMask

def elseMask (c : PdomCtrl lanes pcW depth) (inp : PdomIn lanes pcW) : BitVec lanes :=
  ~~~inp.branchCond &&& c.currMask

/-- The stack control pulses. -/
def stackReq (c : PdomCtrl lanes pcW depth) (inp : PdomIn lanes pcW) : StackReq lanes pcW :=
  let r : StackReq lanes pcW := ⟨false, 0, 0, false⟩
  if c.state = .run then
    let r :=
      if inp.branchFire ∧ c.thenMask inp ≠ 0 ∧ c.elseMask inp ≠ 0 ∧ c.uStack.full = false then
        { r with push := true, pushMask := c.elseMask inp, pushPc := inp.reconvergePc }
      else r
    if inp.pathDone ∧ c.uStack.empty = false then { r with pop := true } else r
  else r

/-- The registers after an edge with `rst` high. -/
def reset : PdomCtrl lanes pcW depth where
  state := .run
  currMask := BitVec.allOnes lanes
  uStack := SimtStack.reset

/-- The branch of the `RUN` arm that assigns `curr_mask` on `branch_fire`. -/
def branchMask (c : PdomCtrl lanes pcW depth) (inp : PdomIn lanes pcW) : BitVec lanes :=
  if c.thenMask inp ≠ 0 ∧ c.elseMask inp = 0 then c.thenMask inp
  else if c.thenMask inp = 0 ∧ c.elseMask inp ≠ 0 then c.elseMask inp
  else if c.thenMask inp ≠ 0 ∧ c.elseMask inp ≠ 0 then c.thenMask inp
  else c.currMask

/-- The `always_ff` block, with the stack instance clocked by the same edge.
In `RUN` the assignment of `path_done` comes last and wins. -/
def posedge (c : PdomCtrl lanes pcW depth) (rst : Bool) (inp : PdomIn lanes pcW) :
    PdomCtrl lanes pcW depth :=
  if rst then reset
  else
    let uStack := c.uStack.posedge false (c.stackReq inp)
    match c.state with
    | .run =>
      let currMask := if inp.branchFire then c.branchMask inp else c.currMask
      if inp.pathDone then
        if c.uStack.empty = false then ⟨.popWait, currMask, uStack⟩
        else ⟨.run, BitVec.allOnes lanes, uStack⟩
      else ⟨.run, currMask, uStack⟩
    | .popWait => ⟨.run, c.uStack.popMask, uStack⟩

/-- The output ports, driven from the registers alone. -/
def output (c : PdomCtrl lanes pcW depth) : PdomOut lanes where
  activeMask := c.currMask
  stackEmpty := c.uStack.empty
  stackFull := c.uStack.full
  diverged := !c.uStack.empty

/-- The module clocked with `rst` low, from the state a reset leaves. -/
def machine (lanes pcW depth : Nat) :
    Mealy (PdomCtrl lanes pcW depth) (PdomIn lanes pcW) (PdomOut lanes) where
  init := reset
  next c inp := c.posedge false inp
  out c _ := c.output

end PdomCtrl
end Rtl
end Simt
