import Mathlib.Algebra.BigOperators.Fin
import Mathlib.Algebra.BigOperators.Intervals
import Mathlib.Algebra.BigOperators.Ring.Finset
import Simt.Sm.DivergeCounters

/-
How large `masked_thread_cycles` can get.

An edge adds at most one warp to those with a waiting path, and no path of a
warp is without lanes.
-/

namespace Simt
namespace Rtl
namespace MiniSmTop

open Finset (range)

variable {p : Params}

/-! ## What the counters hold -/

/-- The lanes masked before cycle `n` in the warps with a waiting path. -/
def maskedBefore (u : Nat → SmIn p) (n : Nat) : Nat :=
  ∑ r ∈ range n, seenLanes ((machine p).stateAt u r)

theorem maskedBefore_succ (u : Nat → SmIn p) (n : Nat) :
    maskedBefore u (n + 1) = maskedBefore u n + seenLanes ((machine p).stateAt u n) :=
  Finset.sum_range_succ _ n

theorem cycleCount_stateAt (u : Nat → SmIn p) (n : Nat) :
    ((machine p).stateAt u n).counters.cycleCount = BitVec.ofNat 32 n := by
  induction n with
  | zero => rfl
  | succ n ih =>
    show (countersNext _ (u n)).cycleCount = _
    rw [countersNext_eq, ih]
    exact (BitVec.ofNat_add n 1).symm

theorem maskedThreadCycles_stateAt (u : Nat → SmIn p) (n : Nat) :
    ((machine p).stateAt u n).counters.maskedThreadCycles =
      BitVec.ofNat 32 (maskedBefore u n) := by
  induction n with
  | zero => rfl
  | succ n ih =>
    show (countersNext _ (u n)).maskedThreadCycles = _
    rw [countersNext_eq, ih, maskedThisCycle_eq, maskedBefore_succ, BitVec.ofNat_add]

/-! ## The warps with a waiting path -/

def diverged (s : MiniSmTop p) : Finset Nat :=
  (range p.warps).filter fun w => s.warpDiverged.getD w false = true

theorem seenLanes_eq (s : MiniSmTop p) : s.seenLanes = ∑ w ∈ s.diverged, s.inactive w :=
  (Finset.sum_filter _ _).symm

theorem lt_of_mem_diverged {s : MiniSmTop p} {w : Nat} (h : w ∈ s.diverged) : w < p.warps :=
  Finset.mem_range.mp (Finset.mem_filter.mp h).1

theorem card_diverged_le_warps (s : MiniSmTop p) : s.diverged.card ≤ p.warps := by
  have hle := Finset.card_filter_le (range p.warps) fun w => s.warpDiverged.getD w false = true
  rw [Finset.card_range] at hle
  exact hle

section Run

variable (u : Nat → SmIn p) (t : Nat) {w : Nat}

theorem warpDiverged_iff (hw : w < p.warps) :
    ((machine p).stateAt u t).warpDiverged.getD w false = true ↔
      (((machine p).stateAt u t).pdom w).paths.deferred ≠ [] := by
  rw [warpDiverged_getD _ hw, Bool.not_eq_true', ← Bool.not_eq_true,
    PdomCtrl.empty_iff_deferred (pdom_rep u t hw)]

theorem mem_diverged (hw : w < p.warps) :
    w ∈ ((machine p).stateAt u t).diverged ↔
      (((machine p).stateAt u t).pdom w).paths.deferred ≠ [] := by
  rw [diverged, Finset.mem_filter, Finset.mem_range, and_iff_right hw, warpDiverged_iff u t hw]

theorem diverged_zero : ((machine p).stateAt u 0).diverged = ∅ := by
  rw [Finset.eq_empty_iff_forall_notMem]
  intro w h
  rw [mem_diverged u 0 (lt_of_mem_diverged h), paths_zero] at h
  exact h rfl

/-- A warp without a push is no new one. -/
theorem mem_diverged_of_succ
    (hpush : (((machine p).stateAt u t).pdom w).paths.pushed p.pdomDepth
      (PdomCtrl.event (((machine p).stateAt u t).pdomIn (u t) w)) = [])
    (h : w ∈ ((machine p).stateAt u (t + 1)).diverged) :
    w ∈ ((machine p).stateAt u t).diverged := by
  have hw := lt_of_mem_diverged h
  rw [mem_diverged u (t + 1) hw, paths_succ u t hw] at h
  rw [mem_diverged u t hw]
  exact fun hq => h (Paths.edgeStep_deferred_nil hpush hq)

/-- Only the warp of the issued instruction can be new. -/
theorem diverged_succ_subset :
    ((machine p).stateAt u (t + 1)).diverged ⊆
      insert (((machine p).stateAt u t).issueWarpId (u t)).toNat
        ((machine p).stateAt u t).diverged := by
  intro w h
  rw [Finset.mem_insert]
  by_cases hid : w = (((machine p).stateAt u t).issueWarpId (u t)).toNat
  · exact Or.inl hid
  · refine Or.inr (mem_diverged_of_succ u t (if_neg fun hx => hid ?_) h)
    exact ((branchFire_iff _ (u t) (lt_of_mem_diverged h)).mp hx.1).2.2.symm

/-- The warps diverge one after the other. -/
theorem card_diverged_le : ((machine p).stateAt u t).diverged.card ≤ t := by
  induction t with
  | zero => rw [diverged_zero, Finset.card_empty]
  | succ t ih =>
    calc ((machine p).stateAt u (t + 1)).diverged.card
        ≤ (insert (((machine p).stateAt u t).issueWarpId (u t)).toNat
            ((machine p).stateAt u t).diverged).card :=
          Finset.card_le_card (diverged_succ_subset u t)
      _ ≤ ((machine p).stateAt u t).diverged.card + 1 := Finset.card_insert_le _ _
      _ ≤ t + 1 := by omega

theorem diverged_eq_empty (hdepth : p.pdomDepth = 0) :
    ((machine p).stateAt u t).diverged = ∅ := by
  induction t with
  | zero => exact diverged_zero u
  | succ t ih =>
    rw [Finset.eq_empty_iff_forall_notMem]
    intro w h
    have hmem := mem_diverged_of_succ u t (if_neg fun hx => by omega) h
    rw [ih] at hmem
    exact absurd hmem (Finset.notMem_empty w)

/-! ## The lanes of a path -/

theorem populated_stateAt (hL : 1 ≤ p.lanes) (hw : w < p.warps) :
    (((machine p).stateAt u t).pdom w).paths.Populated := by
  have : Nonempty (Fin p.lanes) := ⟨⟨0, hL⟩⟩
  induction t with
  | zero =>
    rw [paths_zero]
    exact Paths.start_populated
  | succ t ih =>
    rw [paths_succ u t hw]
    exact Paths.edgeStep_populated ih _

theorem countOnes_eq_card {w : Nat} (b : BitVec w) : countOnes b = (lanesOf w b).card := by
  have hsum : ∀ n, (List.range n).countP (fun i => b.getLsbD i) =
      ∑ i ∈ range n, if b.getLsbD i = true then 1 else 0 := by
    intro n
    induction n with
    | zero => rfl
    | succ n ih => rw [countP_range_succ, Finset.sum_range_succ, ih]
  rw [countOnes, hsum, Finset.sum_range, lanesOf, Finset.card_filter]

theorem inactive_eq (s : MiniSmTop p) {w : Nat} (hw : w < p.warps) :
    s.inactive w = p.lanes - (s.pdom w).paths.active.card := by
  rw [inactive, warpActiveMask_getD _ hw, countOnes_eq_card, lanesOf_not (Nat.le_refl _),
    Finset.card_compl, Fintype.card_fin]
  rfl

/-- A path has a lane, so a warp has at most the others inactive. -/
theorem inactive_le (hw : w < p.warps) :
    ((machine p).stateAt u t).inactive w ≤ p.lanes - 1 := by
  rw [inactive_eq _ hw]
  by_cases hL : 1 ≤ p.lanes
  · have hactive := (Paths.populated_iff.mp (populated_stateAt u t hL hw)).1
    have hpos := Finset.card_pos.mpr (Finset.nonempty_iff_ne_empty.mpr hactive)
    omega
  · omega

/-! ## Bounds on the sum -/

theorem seenLanes_le :
    seenLanes ((machine p).stateAt u t) ≤
      ((machine p).stateAt u t).diverged.card * (p.lanes - 1) := by
  rw [seenLanes_eq]
  refine Finset.sum_le_card_nsmul _ _ _ fun w h => ?_
  exact inactive_le u t (lt_of_mem_diverged h)

/-- All lanes but one of every warp may be masked in every cycle. -/
theorem maskedBefore_le (n : Nat) : maskedBefore u n ≤ n * (p.warps * (p.lanes - 1)) := by
  have hterm : ∀ t ∈ range n,
      seenLanes ((machine p).stateAt u t) ≤ p.warps * (p.lanes - 1) := by
    intro t _
    exact (seenLanes_le u t).trans (Nat.mul_le_mul_right _ (card_diverged_le_warps _))
  have hle := Finset.sum_le_card_nsmul _ _ _ hterm
  rw [Finset.card_range] at hle
  exact hle

theorem two_mul_maskedBefore_le (n : Nat) :
    2 * maskedBefore u n ≤ n * (n - 1) * (p.lanes - 1) := by
  have hterm : ∀ t ∈ range n, seenLanes ((machine p).stateAt u t) ≤ t * (p.lanes - 1) := by
    intro t _
    exact (seenLanes_le u t).trans (Nat.mul_le_mul_right _ (card_diverged_le u t))
  calc 2 * maskedBefore u n
      ≤ 2 * ∑ t ∈ range n, t * (p.lanes - 1) := Nat.mul_le_mul_left 2 (Finset.sum_le_sum hterm)
    _ = (∑ t ∈ range n, t) * 2 * (p.lanes - 1) := by
        rw [← Finset.sum_mul, Nat.mul_comm 2, Nat.mul_right_comm]
    _ = n * (n - 1) * (p.lanes - 1) := by
        rw [Finset.sum_range_id_mul_two]

theorem maskedBefore_depth_zero (hdepth : p.pdomDepth = 0) (n : Nat) : maskedBefore u n = 0 := by
  refine Finset.sum_eq_zero fun t _ => ?_
  rw [seenLanes_eq, diverged_eq_empty u t hdepth, Finset.sum_empty]

/-- A sum above `cycles * WARPS` takes a number of cycles that grows with
`WARPS / (LANES - 1)`. -/
theorem le_maskedBefore_of_lt (hL : 2 ≤ p.lanes) {n : Nat} (h : n * p.warps < maskedBefore u n) :
    (2 * p.warps / (p.lanes - 1) + 2) * p.warps + 1 ≤ maskedBefore u n := by
  have hlt : n * (2 * p.warps) < n * ((n - 1) * (p.lanes - 1)) := by
    have hle := two_mul_maskedBefore_le u n
    rw [← Nat.mul_assoc, ← Nat.mul_assoc, Nat.mul_comm n 2, Nat.mul_assoc]
    omega
  have hcycles : 2 * p.warps / (p.lanes - 1) < n - 1 :=
    (Nat.div_lt_iff_lt_mul (by omega)).mpr (Nat.lt_of_mul_lt_mul_left hlt)
  generalize 2 * p.warps / (p.lanes - 1) = q at hcycles ⊢
  have hle : (q + 2) * p.warps ≤ n * p.warps := Nat.mul_le_mul_right _ (by omega)
  omega

end Run

end MiniSmTop
end Rtl
end Simt
