import Simt.Pdom.RtlPaths
import Simt.Sm.EdgeSpec

/-
The divergence controllers inside the SM, and what a branch that the scheduler
issues does to the controller of its warp.

The issue decision looks at no controller.  A branch that is issued while the
controller waits for a pop is not seen by it, and a split that finds the stack
full defers no lane.
-/

namespace Simt
namespace Rtl

/-! ## One controller -/

namespace PdomCtrl

variable {lanes pcW depth : Nat}

/-- In `RUN`, with room for the ELSE half of a split; or in `POP_WAIT`, where the
branch splits nothing and the popped mask is the active one. -/
def Heeds (c : PdomCtrl lanes pcW depth) (inp : PdomIn lanes pcW) : Prop :=
  (c.state = .run ∧
      ¬ ((c.thenMask inp ≠ 0 ∧ c.elseMask inp ≠ 0) ∧ c.uStack.full = true)) ∨
    (c.state = .popWait ∧ ¬ (c.thenMask inp ≠ 0 ∧ c.elseMask inp ≠ 0) ∧
      c.uStack.popMask = c.currMask)

/-- The next mask is the THEN half, or the ELSE half where the THEN half is
empty, and on a split the ELSE half goes on top of the stack. -/
def TakesBranch (c : PdomCtrl lanes pcW depth) (inp : PdomIn lanes pcW) : Prop :=
  (c.posedge false inp).currMask =
      (if c.thenMask inp ≠ 0 then c.thenMask inp else c.elseMask inp) ∧
    (c.thenMask inp ≠ 0 ∧ c.elseMask inp ≠ 0 →
      (c.posedge false inp).uStack.entries =
        (c.elseMask inp, inp.reconvergePc) :: c.uStack.entries)

theorem half_eq_currMask {c : PdomCtrl lanes pcW depth} {inp : PdomIn lanes pcW}
    (h : ¬ (c.thenMask inp ≠ 0 ∧ c.elseMask inp ≠ 0)) :
    (if c.thenMask inp ≠ 0 then c.thenMask inp else c.elseMask inp) = c.currMask := by
  have hthen : c.thenMask inp = c.currMask &&& inp.branchCond := BitVec.and_comm _ _
  have helse : c.elseMask inp = c.currMask &&& ~~~inp.branchCond := BitVec.and_comm _ _
  rw [hthen, helse] at h ⊢
  by_cases ht : c.currMask &&& inp.branchCond = 0
  · rw [if_neg (not_not.mpr ht)]
    exact and_not_eq_self ht
  · rw [if_pos ht]
    exact and_eq_self (by_contra fun he => h ⟨ht, he⟩)

theorem branchMask_eq (c : PdomCtrl lanes pcW depth) (inp : PdomIn lanes pcW) :
    c.branchMask inp = if c.thenMask inp ≠ 0 then c.thenMask inp else c.elseMask inp := by
  by_cases ht : c.thenMask inp = 0
  · by_cases he : c.elseMask inp = 0
    · rw [half_eq_currMask fun h => h.1 ht]
      simp only [branchMask, ht, he, ne_eq, not_true, false_and, and_false, if_false]
    · simp only [branchMask, ht, he, ne_eq, not_true, not_false_eq_true, and_self, false_and,
        if_false, if_true]
  · by_cases he : c.elseMask inp = 0 <;>
      simp only [branchMask, ht, he, ne_eq, not_true, not_false_eq_true, and_self, and_false,
        false_and, if_false, if_true]

section Branch

variable {c : PdomCtrl lanes pcW depth} (hc : c.Rep) {inp : PdomIn lanes pcW}
  (hf : inp.branchFire = true) (hd : inp.pathDone = false)

include hc

/-- In `POP_WAIT` the popped mask comes back and the stack stays as it is. -/
theorem popWait_next (inp : PdomIn lanes pcW) (hs : c.state = .popWait) :
    (c.posedge false inp).currMask = c.uStack.popMask ∧
      (c.posedge false inp).uStack.entries = c.uStack.entries := by
  have hreq := stackReq_popWait hs inp
  obtain ⟨-, -, hent⟩ := SimtStack.posedge_no_pop hc (r := c.stackReq inp)
    (by simp [hreq, SimtStack.doPop])
  have hnopush : c.uStack.accepted (c.stackReq inp) = [] := by
    simp [hreq, SimtStack.accepted, SimtStack.doPush]
  rw [hnopush, List.nil_append] at hent
  simp only [posedge, hs, Bool.false_eq_true, if_false]
  exact ⟨trivial, hent⟩

include hf hd

theorem run_next (hs : c.state = .run) :
    (c.posedge false inp).currMask =
        (if c.thenMask inp ≠ 0 then c.thenMask inp else c.elseMask inp) ∧
      (c.posedge false inp).uStack.entries =
        (if (c.thenMask inp ≠ 0 ∧ c.elseMask inp ≠ 0) ∧ c.uStack.full = false then
          [(c.elseMask inp, inp.reconvergePc)] else []) ++ c.uStack.entries := by
  have hnopop : c.uStack.doPop (c.stackReq inp) = false := by
    rw [← Bool.not_eq_true, doPop_iff hs, hd]
    simp
  obtain ⟨-, -, hent⟩ := SimtStack.posedge_no_pop hc hnopop
  simp only [posedge, hs, hf, hd, Bool.false_eq_true, if_false, if_true]
  refine ⟨branchMask_eq c inp, ?_⟩
  rw [hent, accepted_eq hs, hf]
  simp only [true_and]

theorem takesBranch_iff : c.TakesBranch inp ↔ c.Heeds inp := by
  cases hs : c.state with
  | run =>
    obtain ⟨hmask, hent⟩ := run_next hc hf hd hs
    have hheeds : c.Heeds inp ↔
        ¬ ((c.thenMask inp ≠ 0 ∧ c.elseMask inp ≠ 0) ∧ c.uStack.full = true) := by
      simp [Heeds, hs]
    rw [TakesBranch, hmask, hent, and_iff_right rfl, hheeds, not_and]
    refine imp_congr_right fun hsplit => ?_
    cases hfull : c.uStack.full with
    | false =>
      rw [if_pos ⟨hsplit, rfl⟩]
      exact iff_of_true rfl Bool.false_ne_true
    | true =>
      rw [if_neg fun h => Bool.noConfusion h.2, List.nil_append]
      exact iff_of_false (List.cons_ne_self _ _).symm fun h => h rfl
  | popWait =>
    obtain ⟨hmask, hent⟩ := popWait_next hc inp hs
    have hheeds : c.Heeds inp ↔ ¬ (c.thenMask inp ≠ 0 ∧ c.elseMask inp ≠ 0) ∧
        c.uStack.popMask = c.currMask := by
      simp [Heeds, hs]
    rw [TakesBranch, hmask, hent, hheeds]
    constructor
    · intro h
      obtain ⟨hpop, hlist⟩ := h
      have hno : ¬ (c.thenMask inp ≠ 0 ∧ c.elseMask inp ≠ 0) := fun hsplit =>
        (List.cons_ne_self _ _).symm (hlist hsplit)
      exact ⟨hno, hpop.trans (half_eq_currMask hno)⟩
    · intro h
      obtain ⟨hno, hpop⟩ := h
      exact ⟨hpop.trans (half_eq_currMask hno).symm, fun hsplit => absurd hsplit hno⟩

end Branch

end PdomCtrl

/-! ## The controllers of the SM -/

namespace MiniSmTop

variable {p : Params}

/-- The divergence controller of warp `w`. -/
def pdom (s : MiniSmTop p) (w : Nat) : PdomOf p := s.uPdom.getD w PdomCtrl.reset

theorem pdom_reset (w : Nat) : (reset : MiniSmTop p).pdom w = PdomCtrl.reset := by
  rw [pdom, reset, getD_replicate]

section Top

variable (s : MiniSmTop p) (inp : SmIn p) {w : Nat} (hw : w < p.warps)

include hw

theorem pdom_posedge :
    (s.posedge false inp).pdom w = (s.pdom w).posedge false (s.pdomIn inp w) := by
  rw [pdom, posedge, getD_ofFn _ hw]
  rfl

theorem warpActiveMask_getD : s.warpActiveMask.getD w 0 = (s.pdom w).currMask := by
  rw [warpActiveMask, getD_of_lt _ hw, Vector.getElem_map, pdom, getD_of_lt _ hw]
  rfl

theorem warpDiverged_getD : s.warpDiverged.getD w false = !(s.pdom w).uStack.empty := by
  rw [warpDiverged, getD_of_lt _ hw, Vector.getElem_map, pdom, getD_of_lt _ hw]
  rfl

theorem branchFire_iff :
    (s.pdomIn inp w).branchFire = true ↔
      s.issueValid inp = true ∧ inp.warpIsBranch.getD w false = true ∧
        (s.issueWarpId inp).toNat = w := by
  have hid : s.issueWarpId inp = BitVec.ofNat _ w ↔ (s.issueWarpId inp).toNat = w := by
    rw [← BitVec.toNat_inj, toNat_warpId hw]
  rw [pdomIn, Bool.and_eq_true, Bool.and_eq_true, beq_iff_eq, hid, and_assoc]

end Top

theorem issueWarpId_lt {s : MiniSmTop p} {inp : SmIn p} (h : s.issueValid inp = true) :
    (s.issueWarpId inp).toNat < p.warps :=
  s.uWarpScheduler.issue_lt h

theorem pdom_rep (u : Nat → SmIn p) (t : Nat) {w : Nat} (hw : w < p.warps) :
    (((machine p).stateAt u t).pdom w).Rep := by
  induction t with
  | zero =>
    show ((reset : MiniSmTop p).pdom w).Rep
    rw [pdom_reset]
    exact PdomCtrl.reset_rep
  | succ t ih =>
    show ((((machine p).stateAt u t).posedge false (u t)).pdom w).Rep
    rw [pdom_posedge _ _ hw]
    exact (PdomCtrl.posedge_spec ih _).1

theorem paths_zero (u : Nat → SmIn p) (w : Nat) :
    (((machine p).stateAt u 0).pdom w).paths = Paths.start := by
  show ((reset : MiniSmTop p).pdom w).paths = _
  rw [pdom_reset, PdomCtrl.reset_paths]

theorem paths_succ (u : Nat → SmIn p) (t : Nat) {w : Nat} (hw : w < p.warps) :
    (((machine p).stateAt u (t + 1)).pdom w).paths =
      (((machine p).stateAt u t).pdom w).paths.edgeStep p.pdomDepth
        (PdomCtrl.event (((machine p).stateAt u t).pdomIn (u t) w)) := by
  show ((((machine p).stateAt u t).posedge false (u t)).pdom w).paths = _
  rw [pdom_posedge _ _ hw]
  exact (PdomCtrl.posedge_spec (pdom_rep u t hw) _).2

/-! ## Issued branches -/

/-- The scheduler issues a branch of warp `w`, and the path of `w` is not at its
end. -/
def IssuesBranch (s : MiniSmTop p) (inp : SmIn p) (w : Nat) : Prop :=
  w < p.warps ∧ s.issueValid inp = true ∧ (s.issueWarpId inp).toNat = w ∧
    inp.warpIsBranch.getD w false = true ∧ inp.warpPathDone.getD w false = false

/-- With `m` the active mask of `w` and `c` its condition, the next active mask
is `m & c`, or `m & ~c` where that is empty, and if neither is empty the second
goes on top of the stack of `w`. -/
def BranchTakesEffect (s : MiniSmTop p) (inp : SmIn p) (w : Nat) : Prop :=
  let m := s.warpActiveMask.getD w 0
  let c := inp.warpBranchCond.getD w 0
  let s' := s.posedge false inp
  s'.warpActiveMask.getD w 0 = (if c &&& m ≠ 0 then c &&& m else ~~~c &&& m) ∧
    (c &&& m ≠ 0 ∧ ~~~c &&& m ≠ 0 →
      (s'.pdom w).uStack.entries =
        (~~~c &&& m, inp.warpReconvergePc.getD w 0) :: (s.pdom w).uStack.entries)

instance (s : MiniSmTop p) (inp : SmIn p) (w : Nat) : Decidable (s.IssuesBranch inp w) :=
  inferInstanceAs (Decidable (_ ∧ _))

instance (s : MiniSmTop p) (inp : SmIn p) (w : Nat) : Decidable (s.BranchTakesEffect inp w) :=
  inferInstanceAs (Decidable (_ ∧ (_ → _)))

theorem branchTakesEffect_iff {s : MiniSmTop p} {inp : SmIn p} {w : Nat} (hc : (s.pdom w).Rep)
    (h : s.IssuesBranch inp w) :
    s.BranchTakesEffect inp w ↔ (s.pdom w).Heeds (s.pdomIn inp w) := by
  obtain ⟨hw, hvalid, hid, hbranch, hdone⟩ := h
  have hfire := (branchFire_iff s inp hw).mpr ⟨hvalid, hbranch, hid⟩
  rw [← PdomCtrl.takesBranch_iff hc hfire hdone, BranchTakesEffect, warpActiveMask_getD _ hw,
    warpActiveMask_getD _ hw, pdom_posedge _ _ hw]
  exact Iff.rfl

/-- In any run the issued branches take effect exactly when the controllers heed
them. -/
theorem branches_take_effect_iff (u : Nat → SmIn p) (n : Nat) :
    (∀ t, t < n → ∀ w, ((machine p).stateAt u t).IssuesBranch (u t) w →
        ((machine p).stateAt u t).BranchTakesEffect (u t) w) ↔
      ∀ t, t < n → ∀ w, ((machine p).stateAt u t).IssuesBranch (u t) w →
        (((machine p).stateAt u t).pdom w).Heeds (((machine p).stateAt u t).pdomIn (u t) w) :=
  forall₄_congr fun t _ _ h => branchTakesEffect_iff (pdom_rep u t h.1) h

/-- Warp 0 presents a branch when `fire` and is at the end of its path when
`done`, and no other warp presents anything. -/
def warpZero (p : Params) (fire : Bool) (cond : BitVec p.lanes) (done : Bool) : SmIn p where
  warpHasInstr := Vector.ofFn fun w => w.val == 0 && fire
  warpInstr := Vector.replicate _ default
  warpA := Vector.replicate _ (Vector.replicate _ 0)
  warpB := Vector.replicate _ (Vector.replicate _ 0)
  warpIsBranch := Vector.ofFn fun w => w.val == 0 && fire
  warpBranchCond := Vector.replicate _ cond
  warpReconvergePc := Vector.replicate _ 0
  warpPathDone := Vector.ofFn fun w => w.val == 0 && done

/-- A warp splits, its THEN path ends, and its next branch is issued while the
controller waits for the pop. -/
theorem branch_lost_in_popWait :
    let p : Params := ⟨2, 1, 2, 2, 1, 1, 1⟩
    let u : Nat → SmIn p := fun t => warpZero p (t == 0 || t == 2) 1 (t == 1)
    ((machine p).stateAt u 2).IssuesBranch (u 2) 0 ∧
      ¬ ((machine p).stateAt u 2).BranchTakesEffect (u 2) 0 := by
  decide +kernel

end MiniSmTop

end Rtl
end Simt
