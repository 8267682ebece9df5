import Mathlib.Algebra.Order.BigOperators.Group.Finset
import Simt.Sm.WarpPdom

/-
The two divergence counters of the SM against what they stand for.

`total_diverge_events` recomputes the split of an issued branch and sees neither
the state of the controller nor its full stack.  `masked_thread_cycles` looks at
the warps with a stacked path alone, and a warp on its last path has none.
-/

namespace Simt
namespace Rtl
namespace MiniSmTop

open Finset (range)

variable {p : Params}

/-! ## `total_diverge_events` -/

/-- The condition under which the counter moves. -/
def countsDivergence (s : MiniSmTop p) (inp : SmIn p) : Bool :=
  s.issueValid inp && inp.warpIsBranch.getD (s.issueWarpId inp).toNat false &&
    s.issuedThenMask inp != 0 && s.issuedElseMask inp != 0

/-- The pushes that the stacks of all warps accept in a cycle. -/
def pushes (s : MiniSmTop p) (inp : SmIn p) : Nat :=
  (List.range p.warps).countP fun w =>
    (s.pdom w).uStack.doPush ((s.pdom w).stackReq (s.pdomIn inp w))

/-- The entries pushed before cycle `t`. -/
def pushedBefore (u : Nat → SmIn p) (t : Nat) : Nat :=
  ∑ r ∈ range t, pushes ((machine p).stateAt u r) (u r)

/-- A branch with both halves non-empty is issued for a warp whose controller
waits for a pop or has a full stack. -/
def Miscounts (s : MiniSmTop p) (inp : SmIn p) : Prop :=
  s.countsDivergence inp = true ∧
    ((s.pdom (s.issueWarpId inp).toNat).state = .popWait ∨
      (s.pdom (s.issueWarpId inp).toNat).uStack.full = true)

instance (s : MiniSmTop p) (inp : SmIn p) : Decidable (s.Miscounts inp) :=
  inferInstanceAs (Decidable (_ ∧ (_ ∨ _)))

section Push

variable {s : MiniSmTop p} {inp : SmIn p}

/-- The top level splits the mask that the controller splits. -/
theorem countsDivergence_iff :
    s.countsDivergence inp = true ↔
      s.issueValid inp = true ∧ inp.warpIsBranch.getD (s.issueWarpId inp).toNat false = true ∧
        (s.pdom (s.issueWarpId inp).toNat).thenMask (s.pdomIn inp (s.issueWarpId inp).toNat) ≠ 0 ∧
        (s.pdom (s.issueWarpId inp).toNat).elseMask
          (s.pdomIn inp (s.issueWarpId inp).toNat) ≠ 0 := by
  simp only [countsDivergence, Bool.and_eq_true, bne_iff_ne, and_assoc]
  refine and_congr_right fun hvalid => ?_
  rw [issuedThenMask, issuedElseMask, warpActiveMask_getD _ (issueWarpId_lt hvalid)]
  exact Iff.rfl

/-- Only the controller of the issued warp can push. -/
theorem doPush_iff {w : Nat} (hw : w < p.warps) :
    (s.pdom w).uStack.doPush ((s.pdom w).stackReq (s.pdomIn inp w)) = true ↔
      w = (s.issueWarpId inp).toNat ∧ s.countsDivergence inp = true ∧ ¬ s.Miscounts inp := by
  cases hs : (s.pdom w).state with
  | popWait =>
    refine iff_of_false ?_ ?_
    · rw [PdomCtrl.stackReq_popWait hs]
      exact Bool.false_ne_true
    · intro h
      obtain ⟨rfl, hcounts, hok⟩ := h
      exact hok ⟨hcounts, Or.inl hs⟩
  | run =>
    rw [PdomCtrl.doPush_iff hs, branchFire_iff s inp hw]
    constructor
    · intro h
      obtain ⟨⟨hvalid, hbranch, rfl⟩, hsplit, hroom⟩ := h
      have hcounts := countsDivergence_iff.mpr ⟨hvalid, hbranch, hsplit⟩
      refine ⟨rfl, hcounts, fun hx => ?_⟩
      rcases hx.2 with hwait | hfull
      · rw [hs] at hwait
        exact PdomState.noConfusion hwait
      · rw [hroom] at hfull
        exact Bool.false_ne_true hfull
    · intro h
      obtain ⟨rfl, hcounts, hok⟩ := h
      obtain ⟨hvalid, hbranch, hsplit⟩ := countsDivergence_iff.mp hcounts
      refine ⟨⟨hvalid, hbranch, rfl⟩, hsplit, ?_⟩
      rw [← Bool.not_eq_true]
      exact fun hfull => hok ⟨hcounts, Or.inr hfull⟩

theorem pushes_eq :
    s.pushes inp = if s.countsDivergence inp = true ∧ ¬ s.Miscounts inp then 1 else 0 := by
  by_cases h : s.countsDivergence inp = true ∧ ¬ s.Miscounts inp
  · have hlt : (s.issueWarpId inp).toNat < p.warps :=
      issueWarpId_lt (countsDivergence_iff.mp h.1).1
    rw [if_pos h, pushes, countP_range_single hlt, if_pos ((doPush_iff hlt).mpr ⟨rfl, h⟩)]
    intro w hw hne
    rw [← Bool.not_eq_true, doPush_iff hw]
    exact fun hx => hne hx.1
  · rw [if_neg h, pushes, List.countP_eq_zero]
    intro w hw
    rw [doPush_iff (List.mem_range.mp hw)]
    exact fun hx => h hx.2

theorem tally_eq_pushes_iff :
    (if s.countsDivergence inp then 1 else 0) = BitVec.ofNat 32 (s.pushes inp) ↔
      ¬ s.Miscounts inp := by
  rw [pushes_eq]
  by_cases hm : s.Miscounts inp
  · rw [if_pos hm.1, if_neg fun h => h.2 hm]
    exact iff_of_false (by decide) fun h => h hm
  · by_cases hc : s.countsDivergence inp = true
    · rw [if_pos hc, if_pos ⟨hc, hm⟩]
      exact iff_of_true rfl hm
    · rw [if_neg hc, if_neg fun h => hc h.1]
      exact iff_of_true rfl hm

end Push

theorem pushedBefore_succ (u : Nat → SmIn p) (t : Nat) :
    pushedBefore u (t + 1) = pushedBefore u t + pushes ((machine p).stateAt u t) (u t) :=
  Finset.sum_range_succ _ t

/-- Along a run the counter holds the number of pushes exactly as long as no
cycle miscounts. -/
theorem total_diverge_events_iff (u : Nat → SmIn p) (n : Nat) :
    (∀ t, t ≤ n → ((machine p).stateAt u t).counters.totalDivergeEvents =
        BitVec.ofNat 32 (pushedBefore u t)) ↔
      ∀ t, t < n → ¬ ((machine p).stateAt u t).Miscounts (u t) := by
  rw [sums_agree_iff (a := fun t => ((machine p).stateAt u t).counters.totalDivergeEvents)
    (b := fun t => BitVec.ofNat 32 (pushedBefore u t))
    (x := fun t => if ((machine p).stateAt u t).countsDivergence (u t) then 1 else 0)
    (y := fun t => BitVec.ofNat 32 (pushes ((machine p).stateAt u t) (u t))) rfl ?_ ?_ n]
  · exact forall₂_congr fun t _ => tally_eq_pushes_iff
  · intro t
    show (countersNext _ (u t)).totalDivergeEvents = _
    rw [countersNext_eq, ← tally_eq_add]
    rfl
  · intro t
    rw [pushedBefore_succ, BitVec.ofNat_add]

/-- A branch splits three lanes, its THEN path ends, and the next split is issued
while the controller waits for the pop: two events and one push. -/
theorem divergence_counted_in_popWait :
    let p : Params := ⟨3, 1, 2, 2, 1, 1, 2⟩
    let u : Nat → SmIn p := fun t => warpZero p (t == 0 || t == 2) (if t = 0 then 3 else 1) (t == 1)
    ((machine p).stateAt u 3).counters.totalDivergeEvents ≠ BitVec.ofNat 32 (pushedBefore u 3) := by
  decide +kernel

/-! ## `masked_thread_cycles` -/

/-- The inactive lanes of a warp. -/
def inactive (s : MiniSmTop p) (w : Nat) : Nat := countOnes (~~~(s.warpActiveMask.getD w 0))

/-- The inactive lanes of all warps. -/
def inactiveLanes (s : MiniSmTop p) : Nat := ∑ w ∈ range p.warps, s.inactive w

/-- The inactive lanes of the warps with a stacked path. -/
def seenLanes (s : MiniSmTop p) : Nat :=
  ∑ w ∈ range p.warps, if s.warpDiverged.getD w false then s.inactive w else 0

/-- The inactive lanes of the warps without one. -/
def unseenLanes (s : MiniSmTop p) : Nat :=
  ∑ w ∈ range p.warps, if s.warpDiverged.getD w false then 0 else s.inactive w

/-- The thread-cycles lost before cycle `t`. -/
def inactiveBefore (u : Nat → SmIn p) (t : Nat) : Nat :=
  ∑ r ∈ range t, inactiveLanes ((machine p).stateAt u r)

section Masked

variable (s : MiniSmTop p)

theorem countOnes_le {w : Nat} (b : BitVec w) : countOnes b ≤ w := countP_range_le _ _

theorem inactive_eq_zero {w : Nat} :
    s.inactive w = 0 ↔ s.warpActiveMask.getD w 0 = BitVec.allOnes p.lanes := by
  rw [inactive, countOnes, List.countP_eq_zero]
  constructor
  · intro h
    apply BitVec.eq_of_getLsbD_eq
    intro i hi
    have hbit := h i (List.mem_range.mpr hi)
    simpa [hi] using hbit
  · intro h i hi
    have hlt := List.mem_range.mp hi
    rw [h]
    simp [hlt]

theorem maskedThisCycle_eq : s.maskedThisCycle = BitVec.ofNat 32 s.seenLanes :=
  foldl_add_ofNat 32 p.warps (s.warpDiverged.getD · false) s.inactive

theorem seen_add_unseen : s.seenLanes + s.unseenLanes = s.inactiveLanes := by
  rw [seenLanes, unseenLanes, inactiveLanes, ← Finset.sum_add_distrib]
  refine Finset.sum_congr rfl fun w _ => ?_
  cases s.warpDiverged.getD w false with
  | false => exact Nat.zero_add _
  | true => exact Nat.add_zero _

theorem maskedThisCycle_eq_iff :
    s.maskedThisCycle = BitVec.ofNat 32 s.inactiveLanes ↔ 2 ^ 32 ∣ s.unseenLanes := by
  rw [maskedThisCycle_eq, ← seen_add_unseen, BitVec.ofNat_add, ← ofNat_eq_zero_iff]
  exact BitVec.self_eq_add_right

/-- With fewer than `2 ^ 32` lanes in all, every unseen warp has to be full. -/
theorem unseenLanes_dvd_iff (hsize : p.warps * p.lanes < 2 ^ 32) :
    2 ^ 32 ∣ s.unseenLanes ↔ ∀ w, w < p.warps → (s.pdom w).uStack.empty = true →
      (s.pdom w).currMask = BitVec.allOnes p.lanes := by
  have hterm : ∀ w ∈ range p.warps,
      (if s.warpDiverged.getD w false then 0 else s.inactive w) ≤ p.lanes := by
    intro w _
    split_ifs
    · exact Nat.zero_le _
    · exact countOnes_le _
  have hle := Finset.sum_le_card_nsmul _ _ p.lanes hterm
  rw [Finset.card_range] at hle
  have hlt : s.unseenLanes < 2 ^ 32 := Nat.lt_of_le_of_lt hle hsize
  have hdvd : 2 ^ 32 ∣ s.unseenLanes ↔ s.unseenLanes = 0 :=
    ⟨fun h => Nat.eq_zero_of_dvd_of_lt h hlt, fun h => h ▸ Nat.dvd_zero _⟩
  rw [hdvd, unseenLanes, Finset.sum_eq_zero_iff]
  refine forall_congr' fun w => ?_
  rw [Finset.mem_range]
  refine imp_congr_right fun hw => ?_
  rw [warpDiverged_getD _ hw, ← warpActiveMask_getD _ hw, ← inactive_eq_zero]
  cases (s.pdom w).uStack.empty with
  | false => exact iff_of_true rfl fun h => absurd h Bool.false_ne_true
  | true => exact ⟨fun h _ => h, fun h => h rfl⟩

end Masked

theorem inactiveBefore_succ (u : Nat → SmIn p) (t : Nat) :
    inactiveBefore u (t + 1) = inactiveBefore u t + inactiveLanes ((machine p).stateAt u t) :=
  Finset.sum_range_succ _ t

/-- Along a run the counter holds the inactive lanes of all cycles exactly as
long as those of the warps with an empty stack vanish modulo `2 ^ 32`, that is
for any SM of fewer lanes as long as every such warp is fully active. -/
theorem masked_thread_cycles_iff (u : Nat → SmIn p) (n : Nat) :
    ((∀ t, t ≤ n → ((machine p).stateAt u t).counters.maskedThreadCycles =
          BitVec.ofNat 32 (inactiveBefore u t)) ↔
        ∀ t, t < n → 2 ^ 32 ∣ ((machine p).stateAt u t).unseenLanes) ∧
      (p.warps * p.lanes < 2 ^ 32 →
        ((∀ t, t < n → 2 ^ 32 ∣ ((machine p).stateAt u t).unseenLanes) ↔
          ∀ t, t < n → ∀ w, w < p.warps →
            (((machine p).stateAt u t).pdom w).uStack.empty = true →
              (((machine p).stateAt u t).pdom w).currMask = BitVec.allOnes p.lanes)) := by
  constructor
  · rw [sums_agree_iff (a := fun t => ((machine p).stateAt u t).counters.maskedThreadCycles)
      (b := fun t => BitVec.ofNat 32 (inactiveBefore u t))
      (x := fun t => ((machine p).stateAt u t).maskedThisCycle)
      (y := fun t => BitVec.ofNat 32 (inactiveLanes ((machine p).stateAt u t))) rfl ?_ ?_ n]
    · exact forall₂_congr fun t _ => maskedThisCycle_eq_iff _
    · intro t
      show (countersNext _ (u t)).maskedThreadCycles = _
      rw [countersNext_eq]
    · intro t
      rw [inactiveBefore_succ, BitVec.ofNat_add]
  · exact fun hsize => forall₂_congr fun t _ => unseenLanes_dvd_iff _ hsize

/-- A warp of two lanes splits and its THEN path ends: the lane that waits for
the pop is counted no more. -/
theorem masked_lane_missed_in_popWait :
    let p : Params := ⟨2, 1, 2, 2, 1, 1, 1⟩
    let u : Nat → SmIn p := fun t => warpZero p (t == 0) 1 (t == 1)
    ((machine p).stateAt u 3).counters.maskedThreadCycles ≠
      BitVec.ofNat 32 (inactiveBefore u 3) := by
  decide +kernel

end MiniSmTop
end Rtl
end Simt
