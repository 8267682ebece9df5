import Simt.Sm.SplitRun
import Simt.Stats.DivStats

/-
When the divergence overhead that `parse_div_stats` takes from a run is a
fraction.

The reader divides the masked thread-cycles by `cycles * WARPS`, which leaves
out the lanes of a warp.
-/

namespace Simt
namespace Rtl
namespace MiniSmTop

open DivergenceSweep (TrueFraction)
open Finset (range)

variable {p : Params}

/-- A run of at least one cycle whose counters have not wrapped.  No counter
but the masked thread-cycles moves more than once in a cycle. -/
def Unwrapped (u : Nat → SmIn p) (n : Nat) : Prop :=
  1 ≤ n ∧ n < 2 ^ 32 ∧ maskedBefore u n < 2 ^ 32

theorem trueFraction_run {u : Nat → SmIn p} {n : Nat} (h : Unwrapped u n) (warpCount : Nat) :
    TrueFraction ((machine p).stateAt u n).counters.dump warpCount ↔
      1 ≤ warpCount ∧ maskedBefore u n ≤ n * warpCount := by
  obtain ⟨hpos, hn, hm⟩ := h
  have hcycles : (BitVec.ofNat 32 n).toNat = n := by
    rw [BitVec.toNat_ofNat, Nat.mod_eq_of_lt hn]
  have hmasked : (BitVec.ofNat 32 (maskedBefore u n)).toNat = maskedBefore u n := by
    rw [BitVec.toNat_ofNat, Nat.mod_eq_of_lt hm]
  have hne : ((machine p).stateAt u n).counters.cycleCount ≠ 0 := by
    rw [cycleCount_stateAt]
    intro hzero
    rw [hzero] at hcycles
    exact absurd hcycles (Nat.ne_of_lt hpos)
  rw [DivergenceSweep.trueFraction_dump hne, cycleCount_stateAt, maskedThreadCycles_stateAt,
    hcycles, hmasked]

/-- Taken over all thread-cycles, `WARPS * LANES` in a cycle, the overhead is a
fraction in every run. -/
theorem trueFraction_thread_cycles (hW : 1 ≤ p.warps) (hL : 1 ≤ p.lanes) {u : Nat → SmIn p}
    {n : Nat} (h : Unwrapped u n) :
    TrueFraction ((machine p).stateAt u n).counters.dump (p.warps * p.lanes) := by
  rw [trueFraction_run h]
  refine ⟨Nat.mul_pos hW hL, (maskedBefore_le u n).trans ?_⟩
  exact Nat.mul_le_mul_left n (Nat.mul_le_mul_left p.warps (Nat.sub_le _ _))

/-! ## Runs above the bound -/

theorem sum_pairs (W : Nat) : ∑ w ∈ range W, (W + 1 - w) * 2 = W * (W + 3) := by
  induction W with
  | zero => rfl
  | succ W ih =>
    rw [Finset.sum_range_succ']
    simp only [Nat.add_sub_add_right, Nat.sub_zero]
    rw [ih]
    ring

section Above

variable (hW : 1 ≤ p.warps) (hdepth : 1 ≤ p.pdomDepth)
  (hfit : (2 * p.warps / (p.lanes - 1) + 2) * p.warps + 1 < 2 ^ 32)

include hW hdepth hfit

/-- With three lanes every warp masks two. -/
theorem exists_above_three_lanes (hL : p.lanes = 3) :
    ∃ (u : Nat → SmIn p) (n : Nat), Unwrapped u n ∧ n * p.warps < maskedBefore u n := by
  have hsum : maskedBefore (splitRun p fun _ => 2) (p.warps + 2) = p.warps * (p.warps + 3) := by
    rw [maskedBefore_splitRun hdepth fun _ => by omega]
    exact sum_pairs p.warps
  have hhalf : 2 * p.warps / (p.lanes - 1) = p.warps := by
    rw [hL]
    omega
  rw [hhalf] at hfit
  have hsmall : p.warps ≤ 65534 := by
    by_contra hbig
    have hle : (65535 + 2) * 65535 ≤ (p.warps + 2) * p.warps :=
      Nat.mul_le_mul (by omega) (by omega)
    omega
  have hle : p.warps * (p.warps + 3) ≤ 65534 * (65534 + 3) :=
    Nat.mul_le_mul hsmall (by omega)
  refine ⟨splitRun p fun _ => 2, p.warps + 2, ⟨by omega, by omega, ?_⟩, ?_⟩
  · rw [hsum]
    omega
  · rw [hsum, Nat.mul_comm]
    exact Nat.mul_lt_mul_of_pos_left (by omega) hW

/-- With more lanes the warps mask one lane too many in all. -/
theorem exists_above_four_lanes (hL : 4 ≤ p.lanes) :
    ∃ (u : Nat → SmIn p) (n : Nat), Unwrapped u n ∧ n * p.warps < maskedBefore u n := by
  obtain ⟨B, hB⟩ : ∃ B, p.lanes = B + 1 := ⟨p.lanes - 1, by omega⟩
  obtain ⟨q, hq⟩ : ∃ q, 2 * p.warps / B = q := ⟨_, rfl⟩
  rw [hB, Nat.add_sub_cancel, hq] at hfit
  have hlt : 2 * p.warps + 1 ≤ B * (q + 1) := by
    rw [← hq]
    exact Nat.lt_mul_div_succ _ (by omega)
  have hfew : q + 1 ≤ p.warps := by
    have hle : 2 * p.warps / B ≤ 2 * p.warps / 3 := Nat.div_le_div_left (by omega) (by decide)
    omega
  have hreach : 2 * ((q + 2) * p.warps + 1) ≤ B * ((q + 1) * (q + 1 + 1)) := by
    calc 2 * ((q + 2) * p.warps + 1) = 2 * p.warps * (q + 2) + 2 := by ring
      _ ≤ 2 * p.warps * (q + 2) + (q + 2) := by omega
      _ = (2 * p.warps + 1) * (q + 2) := by ring
      _ ≤ B * (q + 1) * (q + 2) := Nat.mul_le_mul_right _ hlt
      _ = B * ((q + 1) * (q + 1 + 1)) := by ring
  obtain ⟨a, ha, hsum⟩ := exists_falling_sum (by omega) hreach
  have hmasked : maskedBefore (splitRun p a) (q + 2) = (q + 2) * p.warps + 1 := by
    have hlanes : ∀ w, a w < p.lanes := by
      intro w
      have hle := ha w
      omega
    rw [maskedBefore_splitRun hdepth hlanes, ← hsum]
    refine (Finset.sum_subset (Finset.range_subset_range.mpr hfew) fun w _ hw => ?_).symm
    rw [Finset.mem_range, Nat.not_lt] at hw
    show (q + 1 - w) * a w = 0
    rw [Nat.sub_eq_zero_of_le hw, Nat.zero_mul]
  refine ⟨splitRun p a, q + 2, ⟨by omega, ?_, ?_⟩, ?_⟩
  · have hle := Nat.le_mul_of_pos_right (q + 2) hW
    omega
  · rw [hmasked]
    exact hfit
  · rw [hmasked]
    exact Nat.lt_succ_self _

theorem exists_above (hL : 3 ≤ p.lanes) :
    ∃ (u : Nat → SmIn p) (n : Nat), Unwrapped u n ∧ n * p.warps < maskedBefore u n := by
  rcases Nat.eq_or_lt_of_le hL with h3 | h4
  · exact exists_above_three_lanes hW hdepth hfit h3.symm
  · exact exists_above_four_lanes hW hdepth hfit h4

end Above

/-! ## The overhead as a fraction -/

theorem unwrapped_one (u : Nat → SmIn p) : Unwrapped u 1 := by
  have hle := two_mul_maskedBefore_le u 1
  rw [Nat.sub_self, Nat.mul_zero, Nat.zero_mul] at hle
  exact ⟨Nat.le_refl 1, by decide, by omega⟩

/-- Two lanes mask one at most, a controller without a stack masks none, and
with very many warps the counter wraps first. -/
theorem maskedBefore_le_warps (hcond : p.lanes ≤ 2 ∨ p.pdomDepth = 0 ∨
      2 ^ 32 ≤ (2 * p.warps / (p.lanes - 1) + 2) * p.warps + 1)
    {u : Nat → SmIn p} {n : Nat} (h : Unwrapped u n) : maskedBefore u n ≤ n * p.warps := by
  by_cases hL : p.lanes ≤ 2
  · have hone : p.warps * (p.lanes - 1) ≤ p.warps * 1 := Nat.mul_le_mul_left _ (by omega)
    rw [Nat.mul_one] at hone
    exact (maskedBefore_le u n).trans (Nat.mul_le_mul_left n hone)
  · rcases hcond with hfew | hdepth | hwrap
    · exact absurd hfew hL
    · rw [maskedBefore_depth_zero u hdepth n]
      exact Nat.zero_le _
    · by_contra habove
      have hle := le_maskedBefore_of_lt u (by omega) (Nat.lt_of_not_le habove)
      exact Nat.not_le.mpr h.2.2 (hwrap.trans hle)

/-- For which parameters the overhead is a fraction of every run, and for any
parameters in which runs it is one. -/
theorem overhead_is_fraction_iff (p : Params) :
    ((∀ (u : Nat → SmIn p) (n : Nat), Unwrapped u n →
        TrueFraction ((machine p).stateAt u n).counters.dump p.warps) ↔
      1 ≤ p.warps ∧ (p.lanes ≤ 2 ∨ p.pdomDepth = 0 ∨
        2 ^ 32 ≤ (2 * p.warps / (p.lanes - 1) + 2) * p.warps + 1)) ∧
    ∀ (u : Nat → SmIn p) (n : Nat), Unwrapped u n →
      (TrueFraction ((machine p).stateAt u n).counters.dump p.warps ↔
        1 ≤ p.warps ∧ maskedBefore u n ≤ n * p.warps) := by
  refine ⟨⟨fun hall => ?_, fun hcond u n h => ?_⟩, fun u n h => trueFraction_run h p.warps⟩
  · have hW := ((trueFraction_run (unwrapped_one _) _).mp
      (hall (splitRun p fun _ => 0) 1 (unwrapped_one _))).1
    refine ⟨hW, by_contra fun hcond => ?_⟩
    rw [not_or, not_or, Nat.not_le, Nat.not_le] at hcond
    obtain ⟨hL, hdepth, hfit⟩ := hcond
    obtain ⟨u, n, h, habove⟩ := exists_above hW (Nat.pos_of_ne_zero hdepth) hfit hL
    exact Nat.not_le.mpr habove ((trueFraction_run h p.warps).mp (hall u n h)).2
  · exact (trueFraction_run h p.warps).mpr ⟨hcond.1, maskedBefore_le_warps hcond.2 h⟩

/-- Warp 0 of four branches away seven of its eight lanes in the first of three
cycles: 14 masked thread-cycles over 12. -/
theorem overhead_above_hundred :
    let u : Nat → SmIn {} := fun t => warpZero {} (t == 0) 1 false
    Unwrapped u 3 ∧ ¬ TrueFraction ((machine {}).stateAt u 3).counters.dump 4 := by
  intro u
  have hmasked : maskedBefore u 3 = 14 := by decide +kernel
  have hrun : Unwrapped u 3 := by
    refine ⟨by decide, by decide, ?_⟩
    rw [hmasked]
    decide
  refine ⟨hrun, ?_⟩
  rw [trueFraction_run hrun, hmasked]
  decide

end MiniSmTop
end Rtl
end Simt
