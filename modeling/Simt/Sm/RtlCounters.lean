import Simt.Sm.RtlRefines
import Simt.Sm.SplitRun

/-
What the counters of `mini_sm_top` count.

The two signals that sort a cycle, `issue_valid` and `scoreboard_blocked`, say
what the warps present: the scan of the scheduler is complete, and no warp of
the SM is ever stalled.
-/

namespace Simt
namespace Rtl
namespace MiniSmTop

variable {p : Params}

/-- Warp `w` presents an instruction. -/
def Presents (inp : SmIn p) (w : Nat) : Prop :=
  w < p.warps ∧ inp.warpHasInstr.getD w false = true

/-- A source of the instruction at the ports of warp `w` is busy. -/
def Blocked (s : MiniSmTop p) (inp : SmIn p) (w : Nat) : Prop :=
  s.uScoreboard.read w (inp.warpInstr.getD w default).src0.toNat = true ∨
    s.uScoreboard.read w (inp.warpInstr.getD w default).src1.toNat = true

/-! ## One cycle -/

section Cycle

variable {s : MiniSmTop p} {inp : SmIn p}

theorem canIssue_iff {w : Nat} (hw : w < p.warps) :
    (s.warpCanIssue inp).getD w false = true ↔ ¬ s.Blocked inp w := by
  have hsrc : ∀ f : InstrMeta p → RegId p,
      (inp.warpInstr.map f).getD w 0 = f (inp.warpInstr.getD w default) := by
    intro f
    rw [getD_of_lt _ hw, getD_of_lt _ hw, Vector.getElem_map]
  rw [warpCanIssue, Scoreboard.canIssue, getD_ofFn _ hw, hsrc, hsrc, Bool.not_eq_true',
    Bool.or_eq_false_iff, Blocked, not_or, Bool.not_eq_true, Bool.not_eq_true]

variable (hready : ∀ w, w < p.warps → s.warpReady.getD w false = true)

include hready

theorem scoreboardBlocked_iff :
    s.scoreboardBlocked inp = true ↔ ∃ w, Presents inp w ∧ s.Blocked inp w := by
  rw [scoreboardBlocked, List.any_eq_true]
  constructor
  · intro h
    obtain ⟨w, hmem, hw⟩ := h
    have hlt := List.mem_range.mp hmem
    rw [Bool.and_eq_true, Bool.and_eq_true, Bool.not_eq_true', ← Bool.not_eq_true,
      canIssue_iff hlt, not_not] at hw
    exact ⟨w, ⟨hlt, hw.1.1⟩, hw.2⟩
  · intro h
    obtain ⟨w, ⟨hlt, hhas⟩, hblocked⟩ := h
    refine ⟨w, List.mem_range.mpr hlt, ?_⟩
    rw [Bool.and_eq_true, Bool.and_eq_true, Bool.not_eq_true', ← Bool.not_eq_true,
      canIssue_iff hlt, not_not]
    exact ⟨⟨hhas, hready w hlt⟩, hblocked⟩

/-- The scan of the scheduler is complete. -/
theorem issueValid_iff (hptr : s.uWarpScheduler.rrPtr.toNat < p.warps) :
    s.issueValid inp = true ↔ ∃ w, Presents inp w ∧ ¬ s.Blocked inp w := by
  have hissue := s.uWarpScheduler.issue_eq s.warpReady (s.warpCanIssue inp) inp.warpHasInstr
    (Nat.zero_lt_of_lt hptr) fun _ _ => rfl
  have heligible : ∀ w, w < p.warps → ((s.warpReady.getD w false &&
      (s.warpCanIssue inp).getD w false && inp.warpHasInstr.getD w false) = true ↔
        Presents inp w ∧ ¬ s.Blocked inp w) := by
    intro w hw
    rw [Bool.and_eq_true, Bool.and_eq_true, canIssue_iff hw, hready w hw, Presents]
    tauto
  generalize hfirst : RoundRobin.first _ _ _ = r at hissue
  rw [issueValid, hissue]
  cases r with
  | none =>
    refine iff_of_false Bool.false_ne_true fun h => ?_
    obtain ⟨w, hpresents, hfree⟩ := h
    have hnone := (RoundRobin.first_eq_none hptr).mp hfirst w hpresents.1
    rw [(heligible w hpresents.1).mpr ⟨hpresents, hfree⟩] at hnone
    exact absurd hnone.symm Bool.false_ne_true
  | some w =>
    refine iff_of_true rfl ⟨w, ?_⟩
    exact (heligible w (RoundRobin.first_lt hfirst)).mp (RoundRobin.first_sat hfirst)

end Cycle

/-! ## A run -/

section Run

variable (u : Nat → SmIn p)

/-- `issue_valid` in cycle `t`. -/
def issuedAt (t : Nat) : Bool := ((machine p).stateAt u t).issueValid (u t)

/-- `scoreboard_blocked` in cycle `t`. -/
def blockedAt (t : Nat) : Bool := ((machine p).stateAt u t).scoreboardBlocked (u t)

/-- The valid bit that is written back in `j` cycles, at the start of cycle `t`. -/
def validIn (t j : Nat) : Bool :=
  ((machine p).stateAt u t).uExecPipe.validPipe.getD (p.execLatency - 1 - j) false

theorem validIn_zero (j : Nat) : validIn u 0 j = false := getD_replicate _ _

theorem validIn_shift (t : Nat) {j : Nat} (hj : j + 1 < p.execLatency) :
    validIn u (t + 1) j = validIn u t (j + 1) := by
  refine (getD_shiftIn _ _ _ (by omega)).trans ?_
  rw [if_neg (by omega), validIn,
    show p.execLatency - 1 - j - 1 = p.execLatency - 1 - (j + 1) by omega]

theorem validIn_load (t : Nat) {j : Nat} (hj : j + 1 = p.execLatency) :
    validIn u (t + 1) j = issuedAt u t :=
  (getD_shiftIn _ _ _ (by omega)).trans (if_pos (by omega))

theorem wbValid_stateAt (hL : 1 ≤ p.execLatency) (t : Nat) :
    ((machine p).stateAt u t).uExecPipe.wbValid =
      if p.execLatency ≤ t then issuedAt u (t - p.execLatency) else false :=
  delay_eq (validIn u) (fun j _ => validIn_zero u j) (fun t _ hj => validIn_shift u t hj)
    (fun t _ hj => validIn_load u t hj) hL

/-- The writebacks of `n` cycles are the issues of all but the last ones. -/
theorem countP_wbValid (hL : 1 ≤ p.execLatency) (n : Nat) :
    (List.range n).countP (fun t => ((machine p).stateAt u t).uExecPipe.wbValid) =
      (List.range (n - p.execLatency)).countP (issuedAt u) := by
  refine countP_range_delayed (fun t ht => ?_) (fun t => ?_) n
  · rw [wbValid_stateAt u hL, if_neg (Nat.not_le.mpr ht)]
  · rw [wbValid_stateAt u hL, if_pos (Nat.le_add_right _ _), Nat.add_sub_cancel_left]

/-- Every counter holds the number of cycles it counts. -/
theorem counters_stateAt (n : Nat) :
    let c := ((machine p).stateAt u n).counters
    c.cycleCount = BitVec.ofNat 32 n ∧
      c.issueCount = BitVec.ofNat 32 ((List.range n).countP (issuedAt u)) ∧
      c.cyclesWithIssue = BitVec.ofNat 32 ((List.range n).countP (issuedAt u)) ∧
      c.stallDataHazard =
        BitVec.ofNat 32 ((List.range n).countP fun t => !issuedAt u t && blockedAt u t) ∧
      c.stallNoReadyWarp =
        BitVec.ofNat 32 ((List.range n).countP fun t => !issuedAt u t && !blockedAt u t) ∧
      c.stallStructural = 0 ∧ c.stallMemoryLatency = 0 ∧
      c.wbCount = BitVec.ofNat 32
        ((List.range n).countP fun t => ((machine p).stateAt u t).uExecPipe.wbValid) := by
  intro c
  induction n with
  | zero => exact ⟨rfl, rfl, rfl, rfl, rfl, rfl, rfl, rfl⟩
  | succ n ih =>
    obtain ⟨hcycles, hissues, hissuing, hdata, hnone, hstructural, hmemory, hwb⟩ := ih
    have hnext : c = ((machine p).stateAt u n).countersNext (u n) := rfl
    rw [hnext, countersNext_eq, hcycles, hissues, hissuing, hdata, hnone, hwb]
    simp only [countP_range_succ, tally_ofNat]
    exact ⟨(BitVec.ofNat_add n 1).symm, rfl, rfl, rfl, rfl, hstructural, hmemory, trivial⟩

end Run

end MiniSmTop
end Rtl
end Simt
