/-
`simt_types.h`: the run-time configuration and the records the components
exchange.

A `uint32_t` is a `BitVec 32` and a `uint64_t` a `BitVec 64`.  The sizes of a
configuration and the warp and register ids are the non-negative `int`s the
simulator is run with.
-/

namespace Simt
namespace Cpp

/-- `Config` of `simt_types.h`, with its defaults. -/
structure Config where
  warps : Nat := 4
  regs : Nat := 16
  lanes : Nat := 8
  execLatency : Nat := 4
  pdomDepth : Nat := 8

inductive WarpState
  | ready
  | stalled
deriving DecidableEq

/-- `InstrMeta`, as far as `MiniSM::tick` reads it. -/
structure InstrMeta where
  src0 : Nat := 0
  src1 : Nat := 0
  dst : Nat := 0
  hasDst : Bool := false
deriving DecidableEq

structure WbResult where
  warpId : Nat := 0
  dst : Nat := 0
  hasDst : Bool := false
deriving DecidableEq

structure PerfCounters where
  cycles : BitVec 64 := 0
  instructions : BitVec 64 := 0
  stallData : BitVec 64 := 0
  stallStructural : BitVec 64 := 0
  stallMemory : BitVec 64 := 0
  stallNoWarp : BitVec 64 := 0
  cyclesIssuing : BitVec 64 := 0
  wbCount : BitVec 64 := 0
  divergeEvents : BitVec 64 := 0
  maskedThreadCycles : BitVec 64 := 0
deriving DecidableEq

end Cpp
end Simt
