import Mathlib.Data.Vector.Basic
import Mathlib.Data.Nat.Log

/-
`simt_stack.sv`: the bounded stack with registered pop outputs.

Signals are two-valued and a vector of `w` bits is a `BitVec w`.  A write that a
clock edge makes outside a memory is dropped.  `posedge` is the `always_ff`
block: every right-hand side reads the registers as they were before the edge.
-/

namespace Simt
namespace Rtl

structure SimtStack (lanes pcW depth : Nat) where
  count : BitVec (Nat.clog 2 (depth + 1))
  popMask : BitVec lanes
  popPc : BitVec pcW
  maskMem : Vector (BitVec lanes) depth
  pcMem : Vector (BitVec pcW) depth

/-- The request ports of `simt_stack`. -/
structure StackReq (lanes pcW : Nat) where
  push : Bool
  pushMask : BitVec lanes
  pushPc : BitVec pcW
  pop : Bool

namespace SimtStack

variable {lanes pcW depth : Nat}

/-- `DEPTH[$bits(count)-1:0]`. -/
def depthBits (depth : Nat) : BitVec (Nat.clog 2 (depth + 1)) := BitVec.ofNat _ depth

def empty (s : SimtStack lanes pcW depth) : Bool := s.count == 0

def full (s : SimtStack lanes pcW depth) : Bool := s.count == depthBits depth

def doPop (s : SimtStack lanes pcW depth) (r : StackReq lanes pcW) : Bool :=
  r.pop && s.count != 0

def doPush (s : SimtStack lanes pcW depth) (r : StackReq lanes pcW) : Bool :=
  r.push && s.count != depthBits depth

/-- The registers after an edge with `rst` high. -/
def reset : SimtStack lanes pcW depth where
  count := 0
  popMask := 0
  popPc := 0
  maskMem := Vector.replicate depth 0
  pcMem := Vector.replicate depth 0

/-- The `always_ff` block. -/
def posedge (s : SimtStack lanes pcW depth) (rst : Bool) (r : StackReq lanes pcW) :
    SimtStack lanes pcW depth :=
  if rst then reset
  else
    let q : SimtStack lanes pcW depth :=
      if s.doPop r then
        { s with
          popMask := s.maskMem.getD (s.count.toNat - 1) 0
          popPc := s.pcMem.getD (s.count.toNat - 1) 0 }
      else s
    match s.doPush r, s.doPop r with
    | true, false =>
      { q with
        maskMem := s.maskMem.setIfInBounds s.count.toNat r.pushMask
        pcMem := s.pcMem.setIfInBounds s.count.toNat r.pushPc
        count := s.count + 1 }
    | false, true => { q with count := s.count - 1 }
    | true, true =>
      -- The slot of the entry that goes out takes the one that comes in.
      { q with
        maskMem := s.maskMem.setIfInBounds (s.count.toNat - 1) r.pushMask
        pcMem := s.pcMem.setIfInBounds (s.count.toNat - 1) r.pushPc }
    | false, false => q

end SimtStack
end Rtl
end Simt
