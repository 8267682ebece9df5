import Simt.Pdom.Representation

/-
Draining the C++ controller: no more branches, and every path ends.

Each stacked mask takes two ticks, one that pops it and one that resumes it, and
one more tick on the empty stack brings the lane mask back.
-/

namespace Simt
namespace Cpp
namespace PdomCtrl

variable {cfg : Config}

/-- `path_done` is held high and `branch_fire` low. -/
def Draining (is : List PdomInput) : Prop :=
  ∀ inp ∈ is, inp.pathDone = true ∧ inp.branchFire = false

/-- The masks that the `POP_WAIT` ticks on a list of inputs resume. -/
def resumes (c : PdomCtrl cfg) : List PdomInput → List (BitVec 32)
  | [] => []
  | inp :: is => c.pendingMasks ++ resumes (c.tick inp).2 is

/-- The ticks to wait for a pending pop. -/
def wait (c : PdomCtrl cfg) : Nat := if c.state = .popWait then 1 else 0

/-- What draining has to reach: the stacked masks come back from top to bottom,
after a pending one, and then every lane is active for good. -/
structure Drains (c : PdomCtrl cfg) (is : List PdomInput) : Prop where
  resumed : 2 * c.sp + c.wait ≤ is.length →
    c.resumes is = c.pendingMasks ++ c.stacked.map StackEntry.mask
  reconverged : 2 * c.sp + 1 + c.wait ≤ is.length →
    ((machine cfg).after c is).state = .run ∧ ((machine cfg).after c is).sp = 0 ∧
      ∀ i, ((machine cfg).after c is).currMask.getLsbD i = decide (i < cfg.lanes)

/-! ## One tick -/

section Tick

variable {c : PdomCtrl cfg} {inp : PdomInput}

theorem pendingMasks_run (hs : c.state = .run) : c.pendingMasks = [] := by
  rw [pendingMasks, hs]

theorem tick_drain (hs : c.state = .run) (hd : inp.pathDone = true)
    (hf : inp.branchFire = false) : (c.tick inp).2 = c.finishPath := by
  simp only [tick, hs, hd, hf, Bool.false_eq_true, if_false, if_true]

theorem finishPath_empty (hsp : c.sp = 0) : c.finishPath = { c with currMask := laneMask cfg } := by
  rw [finishPath, if_neg (by omega)]

theorem finishPath_pop (hsp : 0 < c.sp) :
    c.finishPath = { c with
      popPending := c.stack.getD (c.sp - 1).toNat {}
      sp := c.sp - 1
      state := .popWait } := by
  rw [finishPath, if_pos hsp]

end Tick

/-! ## Draining from `RUN` -/

/-- On the empty stack nothing is resumed, and the first tick sets the lane
mask. -/
theorem drain_empty {c : PdomCtrl cfg} (hs : c.state = .run) (hsp : c.sp = 0)
    {is : List PdomInput} (hd : Draining is) :
    c.resumes is = [] ∧ ((machine cfg).after c is).state = .run ∧
      ((machine cfg).after c is).sp = 0 ∧
      (is ≠ [] → ((machine cfg).after c is).currMask = laneMask cfg) := by
  induction is generalizing c with
  | nil => exact ⟨rfl, hs, hsp, fun h => absurd rfl h⟩
  | cons inp is ih =>
    obtain ⟨⟨hdone, hfire⟩, hd⟩ := List.forall_mem_cons.mp hd
    have htick : (c.tick inp).2 = { c with currMask := laneMask cfg } := by
      rw [tick_drain hs hdone hfire, finishPath_empty hsp]
    obtain ⟨hres, hrun, hzero, hmask⟩ := ih (c := (c.tick inp).2) (by rw [htick, hs])
      (by rw [htick, hsp]) hd
    refine ⟨?_, hrun, hzero, fun _ => ?_⟩
    · rw [resumes, pendingMasks_run hs, hres, List.nil_append]
    · cases is with
      | nil => exact congrArg currMask htick
      | cons _ _ => exact hmask (List.cons_ne_nil _ _)

/-- Two ticks take the top mask off the stack and resume it. -/
theorem drain_top {c : PdomCtrl cfg} (hs : c.state = .run) (hpos : 0 < c.sp)
    (hle : c.sp ≤ cfg.pdomDepth) {inp : PdomInput} (hd : inp.pathDone = true)
    (hf : inp.branchFire = false) (inp' : PdomInput) :
    let d := ((c.tick inp).2.tick inp').2
    d.state = .run ∧ d.sp = c.sp - 1 ∧
      c.stacked.map StackEntry.mask =
        (c.tick inp).2.pendingMasks ++ d.stacked.map StackEntry.mask := by
  intro d
  have hpop : (c.tick inp).2 = { c with
      popPending := c.stack.getD (c.sp - 1).toNat {}
      sp := c.sp - 1
      state := .popWait } := by
    rw [tick_drain hs hd hf, finishPath_pop hpos]
  have hresume : d = { (c.tick inp).2 with
      currMask := (c.tick inp).2.popPending.mask
      state := .run } := tick_popWait (by rw [hpop]) inp'
  refine ⟨by rw [hresume], by rw [hresume, hpop], ?_⟩
  have hsucc : c.sp.toNat = (c.sp - 1).toNat + 1 := by omega
  rw [hresume, hpop, stacked, hsucc, live_succ _ (by omega) {}]
  rfl

/-- From `RUN` with `n` entries every mask takes two ticks. -/
theorem drain_run (n : Nat) {c : PdomCtrl cfg} (hs : c.state = .run) (hsp : c.sp = n)
    (hle : n ≤ cfg.pdomDepth) {is : List PdomInput} (hd : Draining is) :
    (2 * n ≤ is.length → c.resumes is = c.stacked.map StackEntry.mask) ∧
      (2 * n + 1 ≤ is.length → ((machine cfg).after c is).state = .run ∧
        ((machine cfg).after c is).sp = 0 ∧
        ((machine cfg).after c is).currMask = laneMask cfg) := by
  induction n generalizing c is with
  | zero =>
    obtain ⟨hres, hrun, hzero, hmask⟩ := drain_empty hs hsp hd
    refine ⟨fun _ => ?_, fun hlen => ⟨hrun, hzero, hmask (List.ne_nil_of_length_pos hlen)⟩⟩
    rw [hres, stacked, hsp]
    simp
  | succ n ih =>
    -- A list too short for the two ticks of the top entry promises nothing.
    rcases is with _ | ⟨inp, _ | ⟨inp', is⟩⟩
    · exact ⟨fun hlen => absurd hlen (by simp), fun hlen => absurd hlen (by simp)⟩
    · have hshort : ¬ 2 * (n + 1) ≤ 1 := by omega
      exact ⟨fun hlen => absurd hlen hshort, fun hlen => absurd (Nat.le_of_succ_le hlen) hshort⟩
    · obtain ⟨⟨hdone, hfire⟩, hd⟩ := List.forall_mem_cons.mp hd
      obtain ⟨-, hd⟩ := List.forall_mem_cons.mp hd
      obtain ⟨hrun, hsp', hstack⟩ := drain_top hs (by omega) (by omega) hdone hfire inp'
      obtain ⟨hres, hend⟩ := ih hrun (by omega) (Nat.le_of_succ_le hle) hd
      refine ⟨fun hlen => ?_, fun hlen => ?_⟩
      · rw [resumes, resumes, pendingMasks_run hs, hres (by simpa [Nat.mul_succ] using hlen),
          hstack, List.nil_append]
      · exact hend (by simpa [Nat.mul_succ] using hlen)

/-! ## Draining from any state -/

section Any

variable {c : PdomCtrl cfg} (h0 : 0 ≤ c.sp) (hle : c.sp ≤ cfg.pdomDepth) {is : List PdomInput}

include h0 hle

theorem drain_any (hd : Draining is) :
    (2 * c.sp + c.wait ≤ is.length →
        c.resumes is = c.pendingMasks ++ c.stacked.map StackEntry.mask) ∧
      (2 * c.sp + 1 + c.wait ≤ is.length → ((machine cfg).after c is).state = .run ∧
        ((machine cfg).after c is).sp = 0 ∧
        ((machine cfg).after c is).currMask = laneMask cfg) := by
  have hsp : c.sp = c.sp.toNat := by omega
  cases hs : c.state with
  | run =>
    obtain ⟨hres, hend⟩ := drain_run c.sp.toNat hs hsp (by omega) hd
    have hw : c.wait = 0 := by simp [wait, hs]
    rw [hw, pendingMasks_run hs]
    exact ⟨fun hlen => hres (by omega), fun hlen => hend (by omega)⟩
  | popWait =>
    have hw : c.wait = 1 := by simp [wait, hs]
    rw [hw]
    cases is with
    | nil =>
      rw [List.length_nil]
      exact ⟨fun hlen => absurd hlen (by omega), fun hlen => absurd hlen (by omega)⟩
    | cons inp is =>
      have htick := tick_popWait hs inp
      obtain ⟨hres, hend⟩ := drain_run c.sp.toNat (c := (c.tick inp).2) (by rw [htick])
        (by rw [htick]; exact hsp) (by omega) (List.forall_mem_cons.mp hd).2
      rw [List.length_cons]
      refine ⟨fun hlen => ?_, fun hlen => hend (by omega)⟩
      rw [resumes, hres (by omega), htick]
      rfl

end Any

/-! ## Which lane counts drain -/

theorem laneMask_eq_zero (h : cfg.lanes = 32) : laneMask cfg = 0 := by
  rw [laneMask, h]
  rfl

end PdomCtrl
end Cpp
end Simt
