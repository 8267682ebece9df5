import Simt.Sm.Throughput
import Simt.Sm.TickSpec

/-
Ticks in which no warp presents an instruction, before a run.

They move the counters alone, so what follows is the run from the start.
-/

namespace Simt
namespace Cpp
namespace MiniSM

variable {cfg : Config}

/-- Two states that differ in the counters alone. -/
structure Likewise (a b : MiniSM cfg) : Prop where
  scoreboard : a.scoreboard = b.scoreboard
  warpTable : a.warpTable = b.warpTable
  scheduler : a.scheduler = b.scheduler
  execPipe : a.execPipe = b.execPipe

/-- No warp presents an instruction. -/
def noInstrs (cfg : Config) : WarpInstrs cfg := Vector.replicate _ none

namespace Likewise

variable {a b : MiniSM cfg} (h : Likewise a b)

include h

theorem issuedWarp_eq (is : WarpInstrs cfg) : a.issuedWarp is = b.issuedWarp is := by
  rw [issuedWarp, issuedWarp, h.scheduler, ready, ready, h.warpTable, canIssueVec, canIssueVec,
    h.scoreboard]

theorem held_eq (is : WarpInstrs cfg) : a.held is = b.held is := by
  funext w
  rw [held, held]
  simp only [isBusy, h.scoreboard]

theorem tick (is : WarpInstrs cfg) : Likewise (a.tick is).2 (b.tick is).2 := by
  have hentry : a.issuedEntry is = b.issuedEntry is := by
    rw [issuedEntry, issuedEntry, h.issuedWarp_eq]
  have hstage : a.stage 0 = b.stage 0 := by rw [stage, stage, h.execPipe]
  refine ⟨?_, ?_, ?_, ?_⟩
  · rw [tick_scoreboard, tick_scoreboard, hentry, hstage, h.scoreboard]
  · rw [tick_warpTable, tick_warpTable, h.warpTable]
  · have hptr : (a.tick is).2.scheduler.rrPtr = (b.tick is).2.scheduler.rrPtr := by
      rw [tick_rrPtr, tick_rrPtr, h.issuedWarp_eq, h.scheduler]
    exact congrArg WarpScheduler.mk hptr
  · rw [tick_execPipe, tick_execPipe, hentry, h.execPipe]

end Likewise

theorem noInstrs_getD (w : Nat) : (noInstrs cfg).getD w none = none := getD_replicate w none

theorem issuedWarp_noInstrs (sm : MiniSM cfg) : sm.issuedWarp (noInstrs cfg) = none := by
  cases h : sm.issuedWarp (noInstrs cfg) with
  | none => rfl
  | some w =>
    obtain ⟨m, hm⟩ := exists_instr_of_issuedWarp h
    rw [noInstrs_getD] at hm
    exact absurd hm (by simp)

theorem held_noInstrs (sm : MiniSM cfg) (w : Nat) : sm.held (noInstrs cfg) w = false := by
  rw [held, noInstrs_getD]

theorem fresh_execPipe_tick : (ExecPipe.fresh cfg).tick.2 = ExecPipe.fresh cfg := by
  have hset : ∀ i,
      (ExecPipe.fresh cfg).stages.setIfInBounds i none = (ExecPipe.fresh cfg).stages := by
    intro i
    apply Vector.ext
    intro j hj
    simp [ExecPipe.fresh]
  have hmove : ∀ i, (ExecPipe.fresh cfg).stages.setIfInBounds i
      ((ExecPipe.fresh cfg).stages.getD (i + 1) none) = (ExecPipe.fresh cfg).stages := by
    intro i
    rw [show (ExecPipe.fresh cfg).stages.getD (i + 1) none = none from getD_replicate _ _, hset]
  have hfold := @List.foldl_fixed' _ _
    (fun (stages : Vector (Option WbResult) cfg.execLatency) i =>
      stages.setIfInBounds i (stages.getD (i + 1) none)) _ hmove
    (List.range (cfg.execLatency - 1))
  show (⟨Vector.setIfInBounds _ (cfg.execLatency - 1) none⟩ : ExecPipe cfg) = _
  rw [hfold, hset]

/-- A tick without an instruction leaves a fresh SM as it is. -/
theorem Likewise.idle {sm : MiniSM cfg} (h : Likewise (fresh cfg) sm) :
    Likewise (fresh cfg) (sm.tick (noInstrs cfg)).2 := by
  have hentry : sm.issuedEntry (noInstrs cfg) = none := by
    rw [issuedEntry, issuedWarp_noInstrs]
    rfl
  have hstage : sm.stage 0 = none := by
    rw [stage, ← h.execPipe]
    exact stage_fresh 0
  refine ⟨?_, ?_, ?_, ?_⟩
  · rw [tick_scoreboard, hentry, hstage, ← h.scoreboard]
    rfl
  · rw [tick_warpTable, ← h.warpTable]
  · have hptr : (sm.tick (noInstrs cfg)).2.scheduler.rrPtr = (fresh cfg).scheduler.rrPtr := by
      rw [tick_rrPtr, issuedWarp_noInstrs, h.scheduler]
    exact (congrArg WarpScheduler.mk hptr).symm
  · rw [tick_execPipe, hentry, ← h.execPipe]
    exact fresh_execPipe_tick.symm

theorem likewise_fresh : Likewise (fresh cfg) (fresh cfg) := ⟨rfl, rfl, rfl, rfl⟩

theorem likewise_afterIdle (u : Nat → WarpInstrs cfg) (k t : Nat) :
    Likewise ((machine cfg).stateAt u t)
      ((machine cfg).stateAt (Mealy.afterIdle k (noInstrs cfg) u) (k + t)) :=
  Mealy.stateAt_afterIdle likewise_fresh (fun _ h => h.idle) (fun _ _ i h => h.tick i) u k t

end MiniSM
end Cpp
end Simt
