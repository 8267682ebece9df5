import Simt.Cpp.MiniSM
import Simt.Pdom.CppPaths

/-
A reset against a fresh construction.

`MiniSM` resets every component to what its constructor makes.  `PdomCtrl` keeps
the old stack entries, which are all above the stack pointer, and a push
overwrites an entry before it can be read.
-/

namespace Simt
namespace Cpp
namespace PdomCtrl

variable {cfg : Config}

/-- Two controllers that differ in their entries above the stack pointer
alone. -/
structure Alike (c d : PdomCtrl cfg) : Prop where
  currMask : c.currMask = d.currMask
  state : c.state = d.state
  sp : c.sp = d.sp
  popPending : c.popPending = d.popPending
  stacked : c.stacked = d.stacked
  inRange : c.SpInRange

namespace Alike

variable {c d : PdomCtrl cfg}

theorem output_eq (h : Alike c d) : c.output = d.output := by
  rw [output, output, h.currMask, h.sp]

theorem thenMask_eq (h : Alike c d) (inp : PdomInput) : c.thenMask inp = d.thenMask inp := by
  rw [thenMask, thenMask, h.currMask]

theorem elseMask_eq (h : Alike c d) (inp : PdomInput) : c.elseMask inp = d.elseMask inp := by
  rw [elseMask, elseMask, h.currMask]

theorem live_eq (h : Alike c d) : live c.stack c.sp.toNat = live d.stack c.sp.toNat := by
  have hstacked := h.stacked
  rwa [PdomCtrl.stacked, PdomCtrl.stacked, ← h.sp] at hstacked

/-- A push overwrites the slot it counts in. -/
theorem takeBranch (h : Alike c d) (t e pc : BitVec 32) :
    Alike (c.takeBranch t e pc) (d.takeBranch t e pc) := by
  obtain ⟨h0, hle⟩ := h.inRange
  unfold PdomCtrl.takeBranch
  rw [← h.sp]
  split_ifs with _ _ _ hroom
  · exact ⟨rfl, h.state, rfl, h.popPending, h.live_eq, h.inRange⟩
  · exact ⟨rfl, h.state, rfl, h.popPending, h.live_eq, h.inRange⟩
  · have hsucc : (c.sp + 1).toNat = c.sp.toNat + 1 := by omega
    refine ⟨rfl, h.state, rfl, h.popPending, ?_, ?_, ?_⟩
    · show live (c.stack.setIfInBounds c.sp.toNat _) (c.sp + 1).toNat =
        live (d.stack.setIfInBounds c.sp.toNat _) (c.sp + 1).toNat
      rw [hsucc, live_set_succ _ (by omega), live_set_succ _ (by omega), h.live_eq]
    · show 0 ≤ c.sp + 1
      omega
    · show c.sp + 1 ≤ _
      omega
  · exact ⟨rfl, h.state, h.sp, h.popPending, h.stacked, h.inRange⟩
  · exact h

/-- A pop reads below the stack pointer. -/
theorem finishPath (h : Alike c d) : Alike c.finishPath d.finishPath := by
  obtain ⟨h0, hle⟩ := h.inRange
  unfold PdomCtrl.finishPath
  rw [← h.sp]
  split_ifs with hpos
  · have hsucc : c.sp.toNat = (c.sp - 1).toNat + 1 := by omega
    have hlive := h.live_eq
    rw [hsucc, live_succ _ (by omega) {}, live_succ _ (by omega) {}] at hlive
    obtain ⟨htop, hrest⟩ := List.cons.inj hlive
    exact ⟨h.currMask, rfl, rfl, htop, hrest, by show 0 ≤ c.sp - 1; omega,
      by show c.sp - 1 ≤ _; omega⟩
  · exact ⟨rfl, h.state, rfl, h.popPending, h.live_eq, h.inRange⟩

theorem tick (h : Alike c d) (inp : PdomInput) : Alike (c.tick inp).2 (d.tick inp).2 := by
  cases hs : c.state with
  | popWait =>
    rw [tick_popWait hs, tick_popWait (h.state.symm.trans hs), h.popPending]
    exact ⟨rfl, rfl, h.sp, rfl, h.stacked, h.inRange⟩
  | run =>
    have hs' : d.state = .run := h.state.symm.trans hs
    simp only [PdomCtrl.tick, hs, hs', ← h.thenMask_eq, ← h.elseMask_eq]
    have hb := h.takeBranch (c.thenMask inp) (c.elseMask inp) inp.reconvergePc
    cases inp.branchFire <;> cases inp.pathDone <;>
      simp only [if_true, if_false, Bool.false_eq_true]
    · exact h
    · exact h.finishPath
    · exact hb
    · exact hb.finishPath

end Alike

theorem reset_alike (c : PdomCtrl cfg) : Alike c.reset (fresh cfg) := by
  refine ⟨rfl, rfl, rfl, rfl, ?_, Int.le_refl 0, Int.natCast_nonneg _⟩
  show live _ 0 = live _ 0
  rw [live_zero, live_zero]

end PdomCtrl

/-- After a reset the SM and the divergence controller cannot be told from new
ones. -/
theorem reset_indistinguishable (cfg : Config) :
    (∀ history is : List (WarpInstrs cfg),
        let sm := ((MiniSM.machine cfg).after (MiniSM.fresh cfg) history).reset
        (MiniSM.machine cfg).outs sm is = (MiniSM.machine cfg).outs (MiniSM.fresh cfg) is ∧
          ((MiniSM.machine cfg).after sm is).counters =
            ((MiniSM.machine cfg).after (MiniSM.fresh cfg) is).counters) ∧
      ∀ history is : List PdomInput,
        (PdomCtrl.machine cfg).outs
            ((PdomCtrl.machine cfg).after (PdomCtrl.fresh cfg) history).reset is =
          (PdomCtrl.machine cfg).outs (PdomCtrl.fresh cfg) is := by
  constructor
  · intro history is sm
    have hfresh : sm = MiniSM.fresh cfg := MiniSM.reset_eq_fresh _
    rw [hfresh]
    exact ⟨rfl, rfl⟩
  · intro history is
    refine Mealy.outs_eq _ (R := PdomCtrl.Alike) ?_ ?_ (PdomCtrl.reset_alike _) is
    · intro c d inp h
      exact (PdomCtrl.tick_fst c inp).trans (h.output_eq.trans (PdomCtrl.tick_fst d inp).symm)
    · intro c d inp h
      exact h.tick inp

end Cpp
end Simt
