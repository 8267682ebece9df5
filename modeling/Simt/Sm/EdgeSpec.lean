import Simt.Lib.Registers
import Simt.Lib.RoundRobin
import Simt.Rtl.MiniSmTop

/-
What one clock edge does to the components of `mini_sm_top`.
-/

namespace Simt
namespace Rtl

variable {p : Params}

/-! ## Ids -/

theorem lt_two_pow_warpIdW {w : Nat} (hw : w < p.warps) : w < 2 ^ p.warpIdW :=
  Nat.lt_of_lt_of_le hw (Nat.le_pow_clog Nat.one_lt_two _)

theorem toNat_warpId {w : Nat} (hw : w < p.warps) : (BitVec.ofNat p.warpIdW w).toNat = w := by
  rw [BitVec.toNat_ofNat, Nat.mod_eq_of_lt (lt_two_pow_warpIdW hw)]

/-! ## `warp_table` -/

theorem WarpTable.posedge_no_stall (t : WarpTable p) :
    t.posedge false false 0 false 0 = t := by
  simp [posedge]

theorem WarpTable.warpReady_reset {w : Nat} (hw : w < p.warps) :
    (reset : WarpTable p).warpReady.getD w false = true := by
  rw [warpReady, getD_of_lt _ hw, Vector.getElem_map]
  simp [reset]

/-! ## `scoreboard` -/

namespace Scoreboard

theorem read_reset (w r : Nat) : (reset : Scoreboard p).read w r = false := by
  simp [read, reset]

theorem lt_of_read {s : Scoreboard p} {w r : Nat} (h : s.read w r = true) :
    w < p.warps ∧ r < p.regs := by
  by_contra hout
  apply Bool.false_ne_true
  rw [← h, read]
  by_cases hw : w < p.warps
  · exact (getD_of_ge _ (Nat.le_of_not_lt fun hr => hout ⟨hw, hr⟩) false).symm
  · rw [getD_of_ge s.regBusy (Nat.le_of_not_lt hw), getD_replicate]

theorem read_assign (s : Scoreboard p) (w r : Nat) (b : Bool) {w' r' : Nat} (hw : w' < p.warps)
    (hr : r' < p.regs) :
    (s.assign w r b).read w' r' = if w = w' ∧ r = r' then b else s.read w' r' := by
  unfold read assign
  by_cases hww : w = w'
  · rw [hww, getD_setIfInBounds_self _ hw]
    by_cases hrr : r = r'
    · rw [hrr, getD_setIfInBounds_self _ hr, if_pos ⟨rfl, rfl⟩]
    · rw [getD_setIfInBounds_ne _ hrr, if_neg fun h => hrr h.2]
  · rw [getD_setIfInBounds_ne _ hww, if_neg fun h => hww h.1]

theorem read_posedge (s : Scoreboard p) (issueFire : Bool) (issueWarpId : WarpId p)
    (issueDst : RegId p) (issueHasDst wbValid : Bool) (wbWarpId : WarpId p) (wbDst : RegId p)
    (wbHasDst : Bool) {w r : Nat} (hw : w < p.warps) (hr : r < p.regs) :
    (s.posedge false issueFire issueWarpId issueDst issueHasDst wbValid wbWarpId wbDst
        wbHasDst).read w r = true ↔
      ((issueFire && issueHasDst) = true ∧ issueWarpId.toNat = w ∧ issueDst.toNat = r) ∨
        (s.read w r = true ∧
          ¬ ((wbValid && wbHasDst) = true ∧ wbWarpId.toNat = w ∧ wbDst.toNat = r)) := by
  have hclear : (if wbValid && wbHasDst then s.assign wbWarpId.toNat wbDst.toNat false
      else s).read w r = true ↔ s.read w r = true ∧
        ¬ ((wbValid && wbHasDst) = true ∧ wbWarpId.toNat = w ∧ wbDst.toNat = r) := by
    by_cases hwb : (wbValid && wbHasDst) = true
    · rw [if_pos hwb, read_assign _ _ _ _ hw hr]
      by_cases heq : wbWarpId.toNat = w ∧ wbDst.toNat = r
      · rw [if_pos heq]
        exact iff_of_false Bool.false_ne_true fun h => h.2 ⟨hwb, heq⟩
      · rw [if_neg heq]
        exact (and_iff_left fun h => heq h.2).symm
    · rw [if_neg hwb]
      exact (and_iff_left fun h => hwb h.1).symm
  rw [posedge, if_neg Bool.false_ne_true]
  by_cases hissue : (issueFire && issueHasDst) = true
  · rw [if_pos hissue, read_assign _ _ _ _ hw hr]
    by_cases heq : issueWarpId.toNat = w ∧ issueDst.toNat = r
    · rw [if_pos heq]
      exact iff_of_true rfl (Or.inl ⟨hissue, heq⟩)
    · rw [if_neg heq, hclear]
      exact (or_iff_right fun h => heq h.2).symm
  · rw [if_neg hissue, hclear]
    exact (or_iff_right fun h => hissue h.1).symm

end Scoreboard

/-! ## `warp_scheduler` -/

namespace WarpScheduler

/-- The loop finds the first match in ring order. -/
theorem issue_eq (s : WarpScheduler p) (warpReady warpCanIssue warpHasInstr : Vector Bool p.warps)
    {q : Nat → Bool} (hpos : 0 < p.warps)
    (hq : ∀ w, w < p.warps → (warpReady.getD w false && warpCanIssue.getD w false &&
      warpHasInstr.getD w false) = q w) :
    s.issue warpReady warpCanIssue warpHasInstr =
      match RoundRobin.first p.warps s.rrPtr.toNat q with
      | some w => (true, BitVec.ofNat _ w)
      | none => (false, 0) := by
  have hfun : (fun i => warpReady.getD ((s.rrPtr.toNat + i) % p.warps) false &&
      warpCanIssue.getD ((s.rrPtr.toNat + i) % p.warps) false &&
      warpHasInstr.getD ((s.rrPtr.toNat + i) % p.warps) false) =
      fun i => q ((s.rrPtr.toNat + i) % p.warps) := by
    funext i
    exact hq _ (Nat.mod_lt _ hpos)
  have hloop := foldl_keep_first
    (fun i => warpReady.getD ((s.rrPtr.toNat + i) % p.warps) false &&
      warpCanIssue.getD ((s.rrPtr.toNat + i) % p.warps) false &&
      warpHasInstr.getD ((s.rrPtr.toNat + i) % p.warps) false)
    (fun i => BitVec.ofNat p.warpIdW ((s.rrPtr.toNat + i) % p.warps)) 0 (List.range p.warps)
  rw [issue, hloop, hfun, RoundRobin.first]
  cases (List.range p.warps).find? fun i => q ((s.rrPtr.toNat + i) % p.warps) <;> rfl

theorem issue_spec (s : WarpScheduler p) {warpReady warpCanIssue warpHasInstr : Vector Bool p.warps}
    (h : (s.issue warpReady warpCanIssue warpHasInstr).1 = true) :
    (s.issue warpReady warpCanIssue warpHasInstr).2.toNat < p.warps ∧
      warpHasInstr.getD (s.issue warpReady warpCanIssue warpHasInstr).2.toNat false = true := by
  have hpos : 0 < p.warps := by
    by_contra hzero
    have hrange : List.range p.warps = [] := by
      rw [List.range_eq_nil]
      omega
    rw [issue, hrange] at h
    exact Bool.false_ne_true h
  have hissue := s.issue_eq warpReady warpCanIssue warpHasInstr hpos fun _ _ => rfl
  generalize hfirst : RoundRobin.first _ _ _ = r at hissue
  rw [hissue] at h ⊢
  cases r with
  | none => exact absurd h Bool.false_ne_true
  | some w =>
    have hw := RoundRobin.first_lt hfirst
    have hsat := RoundRobin.first_sat hfirst
    rw [Bool.and_eq_true] at hsat
    show (BitVec.ofNat p.warpIdW w).toNat < _ ∧
      warpHasInstr.getD (BitVec.ofNat p.warpIdW w).toNat false = true
    rw [toNat_warpId hw]
    exact ⟨hw, hsat.2⟩

theorem issue_lt (s : WarpScheduler p) {warpReady warpCanIssue warpHasInstr : Vector Bool p.warps}
    (h : (s.issue warpReady warpCanIssue warpHasInstr).1 = true) :
    (s.issue warpReady warpCanIssue warpHasInstr).2.toNat < p.warps :=
  (s.issue_spec h).1

theorem toNat_rrPtr_posedge (s : WarpScheduler p) {w : Nat} (hw : w < p.warps) :
    (s.posedge false true (BitVec.ofNat _ w)).rrPtr.toNat = (w + 1) % p.warps := by
  have hlast : BitVec.ofNat p.warpIdW w = BitVec.ofNat p.warpIdW (p.warps - 1) ↔
      w = p.warps - 1 := by
    rw [← BitVec.toNat_inj, toNat_warpId hw, toNat_warpId (by omega)]
  rw [posedge, if_neg Bool.false_ne_true, if_pos rfl]
  by_cases h : w = p.warps - 1
  · rw [if_pos (hlast.mpr h), show w + 1 = p.warps by omega, Nat.mod_self]
    rfl
  · have hroom : w + 1 < p.warps := by omega
    have hsucc : BitVec.ofNat p.warpIdW w + 1 = BitVec.ofNat p.warpIdW (w + 1) :=
      (BitVec.ofNat_add w 1).symm
    rw [if_neg (mt hlast.mp h), Nat.mod_eq_of_lt hroom, hsucc, toNat_warpId hroom]

theorem rrPtr_lt_posedge {s : WarpScheduler p} (h : s.rrPtr.toNat < p.warps) {issueValid : Bool}
    {issueWarpId : WarpId p} (hid : issueValid = true → issueWarpId.toNat < p.warps) :
    (s.posedge false issueValid issueWarpId).rrPtr.toNat < p.warps := by
  cases issueValid with
  | false => exact h
  | true =>
    have hnext := s.toNat_rrPtr_posedge (hid rfl)
    rw [BitVec.ofNat_toNat, BitVec.setWidth_eq] at hnext
    rw [hnext]
    exact Nat.mod_lt _ (Nat.zero_lt_of_lt h)

/-- A warp that is the only eligible one is issued. -/
theorem issue_only {s : WarpScheduler p} (h : s.rrPtr.toNat < p.warps)
    {warpReady warpCanIssue warpHasInstr : Vector Bool p.warps} {w : Nat} (hw : w < p.warps)
    (hq : ∀ v, v < p.warps → (warpReady.getD v false && warpCanIssue.getD v false &&
      warpHasInstr.getD v false) = (v == w)) :
    s.issue warpReady warpCanIssue warpHasInstr = (true, BitVec.ofNat _ w) := by
  have hfirst : RoundRobin.first p.warps s.rrPtr.toNat (· == w) = some w := by
    refine (RoundRobin.first_eq_some_iff h).mpr ⟨hw, beq_self_eq_true w, fun v _ hv => ?_⟩
    rw [beq_iff_eq.mp hv]
  rw [s.issue_eq _ _ _ (Nat.zero_lt_of_lt hw) hq, hfirst]

end WarpScheduler

/-! ## `exec_pipe` -/

theorem getD_shiftIn {α : Type} {n : Nat} (x d : α) (pipe : Vector α n) {i : Nat} (hi : i < n) :
    (shiftIn x d pipe).getD i d = if i = 0 then x else pipe.getD (i - 1) d := by
  rw [shiftIn, getD_ofFn _ hi]

/-! ## Counters -/

theorem MiniSmTop.countersNext_eq (s : MiniSmTop p) (inp : SmIn p) :
    s.countersNext inp =
      { cycleCount := s.counters.cycleCount + 1
        issueCount := tally (s.issueValid inp) s.counters.issueCount
        stallDataHazard := tally (!s.issueValid inp && s.scoreboardBlocked inp)
          s.counters.stallDataHazard
        stallStructural := s.counters.stallStructural
        stallMemoryLatency := s.counters.stallMemoryLatency
        stallNoReadyWarp := tally (!s.issueValid inp && !s.scoreboardBlocked inp)
          s.counters.stallNoReadyWarp
        cyclesWithIssue := tally (s.issueValid inp) s.counters.cyclesWithIssue
        wbCount := tally s.uExecPipe.wbValid s.counters.wbCount
        totalDivergeEvents := tally (s.issueValid inp &&
          inp.warpIsBranch.getD (s.issueWarpId inp).toNat false && s.issuedThenMask inp != 0 &&
            s.issuedElseMask inp != 0) s.counters.totalDivergeEvents
        maskedThreadCycles := s.counters.maskedThreadCycles + s.maskedThisCycle } := by
  unfold countersNext tally
  cases s.issueValid inp <;> cases s.uExecPipe.wbValid <;> cases s.scoreboardBlocked inp <;>
    simp only [Bool.true_and, Bool.false_and, Bool.not_true, Bool.not_false, if_true, if_false,
      Bool.false_eq_true, reduceCtorEq] <;>
    split <;> rfl

end Rtl
end Simt
