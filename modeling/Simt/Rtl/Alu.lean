import Mathlib.Data.Vector.Basic

/-
`simd_lane_alu.sv`, `simt_alu_core.sv` and `simt_alu.sv`: the combinational
datapath, one ALU for each lane under a lane mask.
-/

namespace Simt
namespace Rtl

structure LaneOut (dataWidth : Nat) where
  out : BitVec dataWidth
  zero : Bool
  pos : Bool
  neg : Bool

variable {lanes dataWidth : Nat}

/-- The `case` of `simd_lane_alu`. -/
def laneOp (sel : BitVec 3) (in0 in1 : BitVec dataWidth) : BitVec dataWidth :=
  match sel.toNat with
  | 0 => in0 + in1
  | 1 => in0 - in1
  | 2 => in0 * in1
  | 3 => in0 &&& in1
  | 4 => in0 ||| in1
  | 5 => in0 ^^^ in1
  | 6 => if in0.slt in1 then 1 else 0
  | _ => 0

def simdLaneAlu (sel : BitVec 3) (in0 in1 : BitVec dataWidth) : LaneOut dataWidth :=
  let out := laneOp sel in0 in1
  if out = 0 then ⟨out, true, false, false⟩
  else if out.getLsbD (dataWidth - 1) = false then ⟨out, false, true, false⟩
  else ⟨out, false, false, true⟩

/-- The operands of a warp, one for each lane. -/
abbrev Operands (lanes dataWidth : Nat) := Vector (BitVec dataWidth) lanes

/-- An inactive lane passes `a` through, with the flags of `a`. -/
def passThrough (a : BitVec dataWidth) : LaneOut dataWidth where
  out := a
  zero := a == 0
  pos := a != 0 && a.getLsbD (dataWidth - 1) == false
  neg := a.getLsbD (dataWidth - 1)

def simtAluCore (sel : BitVec 3) (laneMask : BitVec lanes) (a b : Operands lanes dataWidth) :
    Vector (LaneOut dataWidth) lanes :=
  Vector.ofFn fun i =>
    if laneMask.getLsbD i then simdLaneAlu sel (a.getD i 0) (b.getD i 0)
    else passThrough (a.getD i 0)

structure AluOut (lanes dataWidth : Nat) where
  inReady : Bool
  outValid : Bool
  lane : Vector (LaneOut dataWidth) lanes

/-- `simt_alu`: no storage, always ready. -/
def simtAlu (inValid : Bool) (sel : BitVec 3) (laneMask : BitVec lanes)
    (a b : Operands lanes dataWidth) : AluOut lanes dataWidth where
  inReady := true
  outValid := inValid
  lane := simtAluCore sel laneMask a b

end Rtl
end Simt
