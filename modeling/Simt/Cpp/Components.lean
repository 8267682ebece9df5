import Simt.Cpp.Types

/-
The four components of `MiniSM`: `scoreboard.cpp`, `warp_table.cpp`,
`warp_scheduler.cpp` and `exec_pipe.cpp`.

A read outside an array is undefined in C++.  Here it returns the value a fresh
array holds, and a write outside it is dropped.
-/

namespace Simt
namespace Cpp

variable {cfg : Config}

/-! ## `Scoreboard` -/

structure Scoreboard (cfg : Config) where
  busy : Vector Bool (cfg.warps * cfg.regs)

namespace Scoreboard

def idx (cfg : Config) (warp reg : Nat) : Nat := warp * cfg.regs + reg

def fresh (cfg : Config) : Scoreboard cfg := ⟨Vector.replicate _ false⟩

def canIssue (s : Scoreboard cfg) (warpId src0 src1 : Nat) : Bool :=
  !s.busy.getD (idx cfg warpId src0) false && !s.busy.getD (idx cfg warpId src1) false

def markBusy (s : Scoreboard cfg) (warpId reg : Nat) : Scoreboard cfg :=
  ⟨s.busy.setIfInBounds (idx cfg warpId reg) true⟩

def clear (s : Scoreboard cfg) (warpId reg : Nat) : Scoreboard cfg :=
  ⟨s.busy.setIfInBounds (idx cfg warpId reg) false⟩

def reset (_ : Scoreboard cfg) : Scoreboard cfg := ⟨Vector.replicate _ false⟩

end Scoreboard

/-! ## `WarpTable` -/

structure WarpTable (cfg : Config) where
  state : Vector WarpState cfg.warps

namespace WarpTable

def fresh (cfg : Config) : WarpTable cfg := ⟨Vector.replicate _ .ready⟩

def isReady (t : WarpTable cfg) (warpId : Nat) : Bool := t.state.getD warpId .ready == .ready

def reset (_ : WarpTable cfg) : WarpTable cfg := ⟨Vector.replicate _ .ready⟩

end WarpTable

/-! ## `WarpScheduler` -/

structure WarpScheduler (cfg : Config) where
  rrPtr : Nat

namespace WarpScheduler

def fresh (cfg : Config) : WarpScheduler cfg := ⟨0⟩

/-- The first eligible warp from `rr_ptr` on. -/
def select (s : WarpScheduler cfg) (hasInstr ready canIssue : Vector Bool cfg.warps) :
    Option Nat :=
  (List.range cfg.warps).findSome? fun i =>
    let w := (s.rrPtr + i) % cfg.warps
    if hasInstr.getD w false && ready.getD w false && canIssue.getD w false then some w else none

def advance (_ : WarpScheduler cfg) (issuedWarp : Nat) : WarpScheduler cfg :=
  ⟨(issuedWarp + 1) % cfg.warps⟩

def reset (_ : WarpScheduler cfg) : WarpScheduler cfg := ⟨0⟩

end WarpScheduler

/-! ## `ExecPipe` -/

/-- `stages[0]` is the oldest entry and `stages[depth - 1]` the newest. -/
structure ExecPipe (cfg : Config) where
  stages : Vector (Option WbResult) cfg.execLatency

namespace ExecPipe

def fresh (cfg : Config) : ExecPipe cfg := ⟨Vector.replicate _ none⟩

/-- The entry that leaves, and the stages after the shift. -/
def tick (p : ExecPipe cfg) : Option WbResult × ExecPipe cfg :=
  let wb := p.stages.getD 0 none
  let stages := (List.range (cfg.execLatency - 1)).foldl
    (fun stages i => stages.setIfInBounds i (stages.getD (i + 1) none)) p.stages
  (wb, ⟨stages.setIfInBounds (cfg.execLatency - 1) none⟩)

def push (p : ExecPipe cfg) (entry : WbResult) : ExecPipe cfg :=
  ⟨p.stages.setIfInBounds (cfg.execLatency - 1) (some entry)⟩

def reset (_ : ExecPipe cfg) : ExecPipe cfg := ⟨Vector.replicate _ none⟩

end ExecPipe

end Cpp
end Simt
