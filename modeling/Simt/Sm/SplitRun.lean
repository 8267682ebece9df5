import Mathlib.Algebra.BigOperators.Ring.Finset
import Mathlib.Tactic.Ring
import Simt.Sm.MaskedCycles

/-
A run in which the warps split one after the other, and how many lanes it masks.

In cycle `t` warp `t` presents a branch whose ELSE side takes `a t` lanes.  They
wait from then on, so the numbers `a t` enter the sum of the masked lanes with
the number of cycles that are left.
-/

namespace Simt

open Finset (range)

/-! ## Sums with falling weights -/

/-- The heaviest number of a sum, as high as it goes. -/
theorem exists_heaviest {B : Nat} (hB : 1 ≤ B) {k T : Nat}
    (h : 2 * T ≤ B * ((k + 1) * (k + 2))) :
    ∃ c, c ≤ B ∧ (k + 1) * c ≤ T ∧ 2 * (T - (k + 1) * c) ≤ B * (k * (k + 1)) := by
  by_cases hbig : (k + 1) * B ≤ T
  · have hgauss : B * ((k + 1) * (k + 2)) = B * (k * (k + 1)) + 2 * ((k + 1) * B) := by ring
    exact ⟨B, Nat.le_refl B, hbig, by omega⟩
  · have hmod : T % (k + 1) < k + 1 := Nat.mod_lt T (Nat.succ_pos k)
    have hdiv := Nat.div_add_mod T (k + 1)
    refine ⟨T / (k + 1), ?_, Nat.mul_div_le T (k + 1), ?_⟩
    · rw [Nat.not_le, Nat.mul_comm] at hbig
      exact Nat.le_of_lt ((Nat.div_lt_iff_lt_mul (Nat.succ_pos k)).mpr hbig)
    · calc 2 * (T - (k + 1) * (T / (k + 1))) ≤ 2 * k := by omega
        _ ≤ k * (k + 1) := by
          rcases Nat.eq_zero_or_pos k with rfl | hk
          · exact Nat.le_refl 0
          · rw [Nat.mul_comm]
            exact Nat.mul_le_mul_left k (by omega)
        _ ≤ B * (k * (k + 1)) := Nat.le_mul_of_pos_left _ hB

/-- Numbers from 0 to `B` reach every sum up to the largest. -/
theorem exists_falling_sum {B : Nat} (hB : 1 ≤ B) {k T : Nat} (h : 2 * T ≤ B * (k * (k + 1))) :
    ∃ a : Nat → Nat, (∀ j, a j ≤ B) ∧ ∑ j ∈ range k, (k - j) * a j = T := by
  induction k generalizing T with
  | zero =>
    refine ⟨fun _ => 0, fun _ => Nat.zero_le B, ?_⟩
    rw [Finset.range_zero, Finset.sum_empty]
    omega
  | succ k ih =>
    obtain ⟨c, hc, hle, hrest⟩ := exists_heaviest hB h
    obtain ⟨a, ha, hsum⟩ := ih hrest
    refine ⟨fun j => if j = 0 then c else a (j - 1), fun j => ?_, ?_⟩
    · dsimp only
      split_ifs
      · exact hc
      · exact ha _
    · rw [Finset.sum_range_succ']
      simp only [Nat.add_sub_cancel, Nat.succ_ne_zero, if_false, if_true, Nat.sub_zero,
        Nat.add_sub_add_right]
      rw [hsum]
      omega

/-- Something that is there from cycle `w + 1` on. -/
theorem sum_after (n w x : Nat) :
    ∑ t ∈ range n, (if w < t then x else 0) = (n - 1 - w) * x := by
  induction n with
  | zero => simp
  | succ n ih =>
    rw [Finset.sum_range_succ, ih]
    by_cases h : w < n
    · rw [if_pos h, ← Nat.succ_mul]
      congr 1
      omega
    · have hnow : n - 1 - w = 0 := by omega
      have hnext : n + 1 - 1 - w = 0 := by omega
      rw [if_neg h, hnow, hnext, Nat.add_zero]

/-! ## A split that leaves out the first lanes -/

section FirstLanes

variable {L k : Nat} {PC : Type*}

theorem card_lanesOf_shiftLeft (hk : k ≤ L) :
    (lanesOf L (BitVec.allOnes L <<< k)).card = L - k := by
  have hcompl : (lanesOf L (BitVec.allOnes L <<< k))ᶜ = Finset.univ.filter (·.val < k) := by
    ext i
    simp [mem_lanesOf]
  have hcard := Finset.card_compl_add_card (lanesOf L (BitVec.allOnes L <<< k))
  rw [hcompl, Fin.card_filter_val_lt, Nat.min_eq_right hk, Fintype.card_fin] at hcard
  omega

theorem splits_shiftLeft (hk : k < L) :
    (Paths.start : Paths (Finset (Fin L)) PC).Splits (lanesOf L (BitVec.allOnes L <<< k)) ↔
      k ≠ 0 := by
  have hcard := card_lanesOf_shiftLeft (Nat.le_of_lt hk)
  have hthen : ⊤ ⊓ lanesOf L (BitVec.allOnes L <<< k) ≠ ⊥ := by
    rw [top_inf_eq, Finset.bot_eq_empty, Ne, ← Finset.card_eq_zero, hcard]
    omega
  have helse : ⊤ \ lanesOf L (BitVec.allOnes L <<< k) ≠ ⊥ ↔ k ≠ 0 := by
    rw [top_sdiff, Finset.bot_eq_empty, Ne, ← Finset.card_eq_zero, Finset.card_compl, hcard,
      Fintype.card_fin]
    omega
  rw [← helse]
  exact and_iff_right hthen

theorem branch_shiftLeft {cap : Nat} (hk : k < L) (hcap : 1 ≤ cap) (pc : PC) :
    Paths.branch cap Paths.start (lanesOf L (BitVec.allOnes L <<< k)) pc =
      if k = 0 then Paths.start
      else ⟨lanesOf L (BitVec.allOnes L <<< k), [((lanesOf L (BitVec.allOnes L <<< k))ᶜ, pc)],
        none⟩ := by
  have hroom : (Paths.start : Paths (Finset (Fin L)) PC).deferred.length < cap := hcap
  rw [Paths.branch, if_congr (splits_shiftLeft hk) rfl rfl, ite_not, if_pos hroom]
  simp only [Paths.start, top_inf_eq, top_sdiff]

end FirstLanes

namespace Rtl
namespace MiniSmTop

variable {p : Params}

/-! ## The scheduler along a run -/

section Scheduler

variable (u : Nat → SmIn p)

theorem warpReady_stateAt (t : Nat) {w : Nat} (hw : w < p.warps) :
    ((machine p).stateAt u t).warpReady.getD w false = true := by
  have htable : ((machine p).stateAt u t).uWarpTable = WarpTable.reset := by
    induction t with
    | zero => rfl
    | succ t ih => exact (WarpTable.posedge_no_stall _).trans ih
  rw [warpReady, htable]
  exact WarpTable.warpReady_reset hw

theorem rrPtr_stateAt_lt (hW : 1 ≤ p.warps) (t : Nat) :
    ((machine p).stateAt u t).uWarpScheduler.rrPtr.toNat < p.warps := by
  induction t with
  | zero =>
    have hzero : ((machine p).stateAt u 0).uWarpScheduler.rrPtr.toNat = 0 := BitVec.toNat_zero
    rw [hzero]
    exact hW
  | succ t ih => exact WarpScheduler.rrPtr_lt_posedge ih issueWarpId_lt

/-- Instructions without a destination leave every register free. -/
theorem read_stateAt (hdst : ∀ t w, ((u t).warpInstr.getD w default).hasDst = false) (t w r : Nat) :
    ((machine p).stateAt u t).uScoreboard.read w r = false := by
  induction t with
  | zero => exact Scoreboard.read_reset w r
  | succ t ih =>
    rw [← Bool.not_eq_true]
    intro hread
    obtain ⟨hw, hr⟩ := Scoreboard.lt_of_read hread
    rcases (Scoreboard.read_posedge _ _ _ _ _ _ _ _ _ hw hr).mp hread with hissue | hkept
    · rw [issuedInstr, hdst, Bool.and_false] at hissue
      exact Bool.false_ne_true hissue.1
    · rw [ih] at hkept
      exact Bool.false_ne_true hkept.1

end Scheduler

/-! ## The run -/

/-- Warp `t` presents a branch on the lanes from `a t` on in cycle `t`, without a
destination, and no other warp presents anything. -/
def splitRun (p : Params) (a : Nat → Nat) (t : Nat) : SmIn p where
  warpHasInstr := Vector.ofFn fun w => w.val == t
  warpInstr := Vector.replicate _ default
  warpA := Vector.replicate _ (Vector.replicate _ 0)
  warpB := Vector.replicate _ (Vector.replicate _ 0)
  warpIsBranch := Vector.ofFn fun w => w.val == t
  warpBranchCond := Vector.replicate _ (BitVec.allOnes p.lanes <<< a t)
  warpReconvergePc := Vector.replicate _ 0
  warpPathDone := Vector.replicate _ false

section SplitRun

variable (a : Nat → Nat) {t w : Nat}

/-- Every warp is ready with its registers free. -/
theorem splitRun_eligible (hw : w < p.warps) :
    (((machine p).stateAt (splitRun p a) t).warpReady.getD w false &&
        (((machine p).stateAt (splitRun p a) t).warpCanIssue (splitRun p a t)).getD w false &&
        (splitRun p a t).warpHasInstr.getD w false) = (w == t) := by
  have hdst : ∀ t w, ((splitRun p a t).warpInstr.getD w default).hasDst = false := by
    intro t w
    exact congrArg InstrMeta.hasDst (getD_replicate w default)
  have hfree : (((machine p).stateAt (splitRun p a) t).warpCanIssue
      (splitRun p a t)).getD w false = true := by
    rw [warpCanIssue, Scoreboard.canIssue, getD_ofFn _ hw, read_stateAt _ hdst,
      read_stateAt _ hdst]
    rfl
  rw [warpReady_stateAt _ _ hw, hfree]
  exact getD_ofFn _ hw _

theorem splitRun_issue (ht : t < p.warps) :
    ((machine p).stateAt (splitRun p a) t).issueValid (splitRun p a t) = true ∧
      (((machine p).stateAt (splitRun p a) t).issueWarpId (splitRun p a t)).toNat = t := by
  have hissue := WarpScheduler.issue_only
    (rrPtr_stateAt_lt (splitRun p a) (Nat.zero_lt_of_lt ht) t) ht
    fun w hw => splitRun_eligible a hw
  rw [issueValid, issueWarpId, hissue]
  exact ⟨rfl, toNat_warpId ht⟩

theorem splitRun_event (hw : w < p.warps) :
    PdomCtrl.event (((machine p).stateAt (splitRun p a) t).pdomIn (splitRun p a t) w) =
      ⟨w == t, lanesOf p.lanes (BitVec.allOnes p.lanes <<< a t), 0, false⟩ := by
  have hbranch : (splitRun p a t).warpIsBranch.getD w false = (w == t) := getD_ofFn _ hw _
  have hfire : (((machine p).stateAt (splitRun p a) t).pdomIn (splitRun p a t) w).branchFire =
      (w == t) := by
    rw [Bool.eq_iff_iff, branchFire_iff _ _ hw, hbranch, beq_iff_eq]
    constructor
    · exact fun h => h.2.1
    · intro h
      obtain ⟨hvalid, hid⟩ := splitRun_issue (p := p) a (h ▸ hw)
      exact ⟨hvalid, h, hid.trans h.symm⟩
  have hcond : (splitRun p a t).warpBranchCond.getD w 0 = BitVec.allOnes p.lanes <<< a t := by
    rw [splitRun, getD_of_lt _ hw, Vector.getElem_replicate]
  have hpc : (splitRun p a t).warpReconvergePc.getD w 0 = 0 := getD_replicate w 0
  have hdone : (splitRun p a t).warpPathDone.getD w false = false := getD_replicate w false
  rw [PdomCtrl.event, hfire]
  simp only [pdomIn, hcond, hpc, hdone]

/-- A warp has split once its cycle is over, and nothing happens to it before
and after. -/
theorem splitRun_paths (hw : w < p.warps) (t : Nat) :
    (((machine p).stateAt (splitRun p a) t).pdom w).paths =
      if w < t then
        Paths.branch p.pdomDepth Paths.start (lanesOf p.lanes (BitVec.allOnes p.lanes <<< a w)) 0
      else Paths.start := by
  induction t with
  | zero => rw [paths_zero, if_neg (Nat.not_lt_zero w)]
  | succ t ih =>
    rw [paths_succ (splitRun p a) t hw, splitRun_event a hw, ih,
      Paths.edgeStep_eq_step fun hx => Bool.false_ne_true hx.2.2.1]
    rcases Nat.lt_trichotomy w t with hlt | rfl | hgt
    · have hfire : (w == t) = false := beq_eq_false_iff_ne.mpr (Nat.ne_of_lt hlt)
      rw [if_pos hlt, if_pos (Nat.lt_succ_of_lt hlt)]
      exact Paths.step_idle (Paths.branch_resuming _ _) hfire rfl
    · rw [if_neg (Nat.lt_irrefl w), if_pos (Nat.lt_succ_self w)]
      exact Paths.step_branch rfl (beq_self_eq_true w) rfl
    · have hfire : (w == t) = false := beq_eq_false_iff_ne.mpr (Nat.ne_of_gt hgt)
      rw [if_neg (Nat.lt_asymm hgt), if_neg (Nat.not_lt.mpr hgt)]
      exact Paths.step_idle rfl hfire rfl

/-! ## The lanes it masks -/

variable {a} (hdepth : 1 ≤ p.pdomDepth) (ha : ∀ w, a w < p.lanes)

include hdepth ha

/-- The lanes of the ELSE side wait, and none do where it is empty. -/
theorem splitRun_masked (hw : w < p.warps) (t : Nat) :
    (if ((machine p).stateAt (splitRun p a) t).warpDiverged.getD w false then
      ((machine p).stateAt (splitRun p a) t).inactive w else 0) = if w < t then a w else 0 := by
  rw [inactive_eq _ hw, if_congr (warpDiverged_iff (splitRun p a) t hw) rfl rfl,
    splitRun_paths a hw t]
  by_cases hwt : w < t
  · rw [if_pos hwt, if_pos hwt, branch_shiftLeft (ha w) hdepth]
    by_cases hzero : a w = 0
    · rw [if_pos hzero, hzero]
      exact if_neg fun h => h rfl
    · have hlt := ha w
      rw [if_neg hzero, if_pos (List.cons_ne_nil _ _), card_lanesOf_shiftLeft (Nat.le_of_lt hlt)]
      omega
  · rw [if_neg hwt, if_neg hwt]
    exact if_neg fun h => h rfl

theorem maskedBefore_splitRun (n : Nat) :
    maskedBefore (splitRun p a) n = ∑ w ∈ range p.warps, (n - 1 - w) * a w := by
  calc maskedBefore (splitRun p a) n
      = ∑ t ∈ range n, ∑ w ∈ range p.warps, (if w < t then a w else 0) :=
        Finset.sum_congr rfl fun t _ => Finset.sum_congr rfl fun w hw =>
          splitRun_masked hdepth ha (Finset.mem_range.mp hw) t
    _ = ∑ w ∈ range p.warps, ∑ t ∈ range n, (if w < t then a w else 0) := Finset.sum_comm
    _ = ∑ w ∈ range p.warps, (n - 1 - w) * a w :=
        Finset.sum_congr rfl fun w _ => sum_after n w (a w)

end SplitRun

end MiniSmTop
end Rtl
end Simt
