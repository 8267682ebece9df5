import Simt.Pdom.RtlSizing
import Simt.Sm.WarpPdom

/-
The lanes of a warp inside the SM stay on the paths of their warp.

Each controller runs as it does alone, on the branches the scheduler issues for
its warp and the `path_done` port of its warp.  So the size that keeps the lanes
of one controller keeps the lanes of all of them, whatever the instruction ports
present.
-/

namespace Simt
namespace Rtl
namespace MiniSmTop

variable {p : Params}

/-- What the controller of warp `w` reads in each cycle of a run. -/
def pdomStream (u : Nat → SmIn p) (w : Nat) (t : Nat) : PdomIn p.lanes p.pcW :=
  ((machine p).stateAt u t).pdomIn (u t) w

/-- The controller of warp `w` after `t` cycles of the SM. -/
theorem pdom_stateAt (u : Nat → SmIn p) {w : Nat} (hw : w < p.warps) (t : Nat) :
    ((machine p).stateAt u t).pdom w =
      (PdomCtrl.machine p.lanes p.pcW p.pdomDepth).stateAt (pdomStream u w) t := by
  induction t with
  | zero => exact pdom_reset w
  | succ t ih =>
    show (((machine p).stateAt u t).posedge false (u t)).pdom w =
      ((PdomCtrl.machine p.lanes p.pcW p.pdomDepth).stateAt (pdomStream u w) t).posedge false
        (pdomStream u w t)
    rw [pdom_posedge _ _ hw, ih]
    rfl

/-- The path lane `i` of warp `w` runs on ends. -/
def EndsPath (s : MiniSmTop p) (inp : SmIn p) (w : Nat) (i : Fin p.lanes) : Prop :=
  (s.pdom w).state = .run ∧ inp.warpPathDone.getD w false = true ∧
    (s.warpActiveMask.getD w 0).getLsbD i = true

/-- The stack of every warp has an entry for each lane, or one less and warp `w`
never pushes over a reconvergence before cycle `n`. -/
def Roomy (u : Nat → SmIn p) (w n : Nat) : Prop :=
  p.lanes ≤ p.pdomDepth ∨ p.lanes - 1 ≤ p.pdomDepth ∧ ∀ t, t < n →
    ¬ (((machine p).stateAt u t).pdom w).ReconvergesOverPush (pdomStream u w t)

section Warp

variable (hl : 1 ≤ p.lanes) (hd : 1 ≤ p.pdomDepth) (u : Nat → SmIn p) {w : Nat}
  (hw : w < p.warps)

include hl hd hw

theorem keepsLanes {t : Nat} (hroom : Roomy u w t) :
    (((machine p).stateAt u t).pdom w).KeepsLanes (((machine p).stateAt u t).pdomIn (u t) w) := by
  show (((machine p).stateAt u t).pdom w).KeepsLanes (pdomStream u w t)
  refine PdomCtrl.keepsLanes_of_room (pdom_rep u t hw) fun ho => ?_
  rw [pdom_stateAt u hw] at ho
  rcases hroom with hsize | ⟨hsize, hok⟩
  · have := Paths.room_of_apartAboveLast (PdomCtrl.apartAboveLast_stateAt hl _ t).1 ho
    omega
  · have hsound := PdomCtrl.sound_stateAt hl hd (u := pdomStream u w) (t := t) fun s hs => by
      rw [← pdom_stateAt u hw]
      exact hok s hs
    have := Paths.room_of_sound hsound ho
    omega

/-- Every lane starts on a path, and a lane on a path stays on one until its own
path ends. -/
theorem lanes_stay_on_path {t₁ t₂ : Nat} (hroom : Roomy u w t₂) (i : Fin p.lanes) :
    (((machine p).stateAt u 0).pdom w).OnPath i ∧
      (t₁ ≤ t₂ → (((machine p).stateAt u t₁).pdom w).OnPath i →
        (∀ t, t₁ ≤ t → t < t₂ → ¬ ((machine p).stateAt u t).EndsPath (u t) w i) →
          (((machine p).stateAt u t₂).pdom w).OnPath i) := by
  constructor
  · rw [PdomCtrl.onPath_iff, paths_zero]
    exact .inl (Finset.mem_univ i)
  · intro hle hon
    induction t₂, hle using Nat.le_induction with
    | base => exact fun _ => hon
    | succ t hle ih =>
      intro hno
      have hroom' : Roomy u w t := hroom.imp_right fun h =>
        ⟨h.1, fun s hs => h.2 s (Nat.lt_succ_of_lt hs)⟩
      have hon' := ih hroom' fun s hs hst => hno s hs (Nat.lt_succ_of_lt hst)
      rcases keepsLanes hl hd u hw hroom' i hon' with hnext | hends
      · show ((((machine p).stateAt u t).posedge false (u t)).pdom w).OnPath i
        rw [pdom_posedge _ _ hw]
        exact hnext
      · refine absurd ?_ (hno t hle (Nat.lt_succ_self t))
        rw [EndsPath, warpActiveMask_getD _ hw]
        exact hends

end Warp

/-- After a split lane 1 waits on the stack and stays there while lane 0 runs. -/
theorem lanes_stay_on_path_small :
    let p : Params := ⟨2, 1, 2, 2, 1, 1, 2⟩
    let u : Nat → SmIn p := fun t => warpZero p (t == 0) 1 false
    (((machine p).stateAt u 3).pdom 0).OnPath 1 := by
  intro p u
  obtain ⟨hstart, hstay⟩ := @lanes_stay_on_path p (by decide) (by decide) u 0 (by decide) 0 3
    (.inl (by decide)) 1
  refine hstay (Nat.zero_le 3) hstart fun t _ _ h => ?_
  have hdone : (u t).warpPathDone.getD 0 false = false := rfl
  exact Bool.false_ne_true (hdone.symm.trans h.2.1)

end MiniSmTop
end Rtl
end Simt
