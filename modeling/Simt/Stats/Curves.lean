import Simt.Stats.Sweep

/-
The curves of `plot_ipc_vs_warps`, as the C++ sweep measures them.

The `k`-th issue of the workload falls into tick `k / W * P + k % W`.  Curves of
two configurations are compared through these ticks.
-/

namespace Simt
namespace PerfSweep

open Cpp (roundIssues roundIssues_bounds)
open Python (Number)

/-! ## The ticks of the issues -/

section Slots

variable {W P W' P' : Nat}

/-- The tick of issue `k`, counted from 0. -/
def slot (W P k : Nat) : Nat := k / W * P + k % W

theorem lt_roundIssues_iff (hW : 1 ≤ W) (hWP : W ≤ P) (n k : Nat) :
    k < roundIssues W P n ↔ slot W P k < n := by
  have hn : n / P * P + n % P = n := Nat.div_add_mod' n P
  have hr : n % P < P := Nat.mod_lt n (Nat.le_trans hW hWP)
  have hk : k / W * W + k % W = k := Nat.div_add_mod' k W
  have hb : k % W < W := Nat.mod_lt k hW
  rw [roundIssues, slot]
  rcases Nat.lt_trichotomy (k / W) (n / P) with hlt | heq | hgt
  · have hround : k / W * W + W ≤ n / P * W := by
      rw [← Nat.succ_mul]
      exact Nat.mul_le_mul_right W hlt
    have htick : k / W * P + P ≤ n / P * P := by
      rw [← Nat.succ_mul]
      exact Nat.mul_le_mul_right P hlt
    omega
  · rw [heq] at hk ⊢
    omega
  · have hround : n / P * W + W ≤ k / W * W := by
      rw [← Nat.succ_mul]
      exact Nat.mul_le_mul_right W hgt
    have htick : n / P * P + P ≤ k / W * P := by
      rw [← Nat.succ_mul]
      exact Nat.mul_le_mul_right P hgt
    omega

/-- Earlier issues are more issues. -/
theorem roundIssues_le_of_slot (hW : 1 ≤ W) (hWP : W ≤ P) (hW' : 1 ≤ W') (hWP' : W' ≤ P')
    (hslot : ∀ k, slot W P k ≤ slot W' P' k) (n : Nat) :
    roundIssues W' P' n ≤ roundIssues W P n := by
  by_contra hlt
  have hmore : roundIssues W P n < roundIssues W' P' n := Nat.lt_of_not_le hlt
  have htick := (lt_roundIssues_iff hW' hWP' n _).mp hmore
  have hless := (lt_roundIssues_iff hW hWP n _).mpr (Nat.lt_of_le_of_lt (hslot _) htick)
  exact Nat.lt_irrefl _ hless

theorem slot_le_of_period (h : P ≤ P') (k : Nat) : slot W P k ≤ slot W P' k :=
  Nat.add_le_add_right (Nat.mul_le_mul_left _ h) _

theorem slot_le_of_warps {w w' l : Nat} (hw : 1 ≤ w) (h : w ≤ w') (k : Nat) :
    slot w' (max w' (l + 1)) k ≤ slot w (max w (l + 1)) k := by
  have hk := Nat.div_add_mod' k w
  have hk' := Nat.div_add_mod' k w'
  have hb' : k % w' < w' := Nat.mod_lt k (Nat.le_trans hw h)
  have hdiv : k / w' ≤ k / w := Nat.div_le_div_left h hw
  unfold slot
  rcases Nat.le_total w' (l + 1) with hle | hge
  · rw [Nat.max_eq_right hle, Nat.max_eq_right (Nat.le_trans h hle)]
    rcases Nat.lt_or_eq_of_le hdiv with hlt | heq
    · have hround : k / w' * (l + 1) + (l + 1) ≤ k / w * (l + 1) := by
        rw [← Nat.succ_mul]
        exact Nat.mul_le_mul_right _ hlt
      omega
    · rw [heq] at hk' ⊢
      have hround : k / w * w ≤ k / w * w' := Nat.mul_le_mul_left _ h
      omega
  · rw [Nat.max_eq_left hge, hk']
    have hround : k / w * w ≤ k / w * max w (l + 1) := Nat.mul_le_mul_left _ (Nat.le_max_left _ _)
    omega

end Slots

/-! ## The curves -/

section Curves

variable {w w' l l' n : Nat}

/-- The measured value of the plot. -/
def ipc (w l n : Nat) : Rat := roundIssues w (max w (l + 1)) n / n

/-- The dashed line of the plot. -/
def theory (w l : Nat) : Rat := (min w (l + 1) : Nat) / (l + 1 : Nat)

theorem theory_eq (hw : 1 ≤ w) : theory w l = w / (max w (l + 1) : Nat) := by
  have hl : ((l + 1 : Nat) : Rat) ≠ 0 := Nat.cast_ne_zero.mpr (Nat.succ_ne_zero l)
  have hw0 : (w : Rat) ≠ 0 := Nat.cast_ne_zero.mpr (by omega)
  rw [theory]
  rcases Nat.le_total w (l + 1) with h | h
  · rw [Nat.min_eq_left h, Nat.max_eq_right h]
  · rw [Nat.min_eq_right h, Nat.max_eq_left h, div_self hl, div_self hw0]

theorem theory_le_ipc (hw : 1 ≤ w) (hn : 1 ≤ n) : theory w l ≤ ipc w l n := by
  have hP : 1 ≤ max w (l + 1) := Nat.le_trans hw (Nat.le_max_left _ _)
  have hbound := (roundIssues_bounds hP (Nat.le_max_left w (l + 1)) n).1
  rw [theory_eq hw, ipc, div_le_div_iff₀ (by exact_mod_cast hP) (by exact_mod_cast hn)]
  have hcast : ((n * w : Nat) : Rat) ≤
      (roundIssues w (max w (l + 1)) n * max w (l + 1) : Nat) := Nat.cast_le.mpr hbound
  push_cast at hcast ⊢
  linarith

theorem ipc_le_theory_add (hn : 1 ≤ n) :
    ipc w l n ≤ theory w l + w * (l + 1 - w : Nat) / ((l + 1 : Nat) * n) := by
  have hnpos : (0 : Rat) < n := by exact_mod_cast hn
  have hlpos : (0 : Rat) < (l + 1 : Nat) := by exact_mod_cast Nat.succ_pos l
  rw [ipc, theory, div_add_div _ _ hlpos.ne' (mul_pos hlpos hnpos).ne',
    div_le_div_iff₀ hnpos (mul_pos hlpos (mul_pos hlpos hnpos))]
  rcases Nat.le_total w (l + 1) with h | h
  · rw [Nat.max_eq_right h, Nat.min_eq_left h]
    have hbound := (roundIssues_bounds (Nat.succ_pos l) h n).2
    have hcast : (roundIssues w (l + 1) n : Rat) * (l + 1 : Nat) ≤
        n * w + w * (l + 1 - w : Nat) := by exact_mod_cast hbound
    have hscaled := mul_le_mul_of_nonneg_right hcast (mul_pos hlpos hnpos).le
    linarith
  · rw [Nat.max_eq_left h, Nat.min_eq_right h, Nat.sub_eq_zero_of_le h]
    have hle : (roundIssues w w n : Rat) ≤ n := Nat.cast_le.mpr (roundIssues_le (Nat.le_refl w) n)
    have hscaled := mul_le_mul_of_nonneg_right hle (mul_pos hlpos (mul_pos hlpos hnpos)).le
    rw [Nat.cast_zero, mul_zero, mul_zero, add_zero]
    linarith

theorem ipc_mono (hw : 1 ≤ w) (h : w ≤ w') : ipc w l n ≤ ipc w' l n := by
  have hle := roundIssues_le_of_slot (Nat.le_trans hw h) (Nat.le_max_left w' (l + 1)) hw
    (Nat.le_max_left w (l + 1)) (slot_le_of_warps hw h) n
  exact div_le_div_of_nonneg_right (Nat.cast_le.mpr hle) (Nat.cast_nonneg n)

theorem ipc_anti (hw : 1 ≤ w) (h : l ≤ l') : ipc w l' n ≤ ipc w l n := by
  have hP : max w (l + 1) ≤ max w (l' + 1) := by omega
  have hle := roundIssues_le_of_slot hw (Nat.le_max_left w (l + 1)) hw
    (Nat.le_max_left w (l' + 1)) (slot_le_of_period hP) n
  exact div_le_div_of_nonneg_right (Nat.cast_le.mpr hle) (Nat.cast_nonneg n)

theorem get_pointStats (w l n : Nat) :
    (pointStats w l n).get "ipc" = some (.num (.float (ipc w l n))) ∧
      (pointStats w l n).get "warp_efficiency" = some (.num (.float (100 * ipc w l n))) := by
  exact ⟨rfl, rfl⟩

/-- The stalls are the rest of the cycles. -/
theorem get_stall_breakdown (hn : 1 ≤ n) :
    (pointStats w l n).get "stall_breakdown" = some (.dict
      [("data_hazard", .float (100 - 100 * ipc w l n)), ("structural", .float 0),
        ("memory_latency", .float 0), ("no_ready_warp", .float 0)]) := by
  have hne : (n : Rat) ≠ 0 := Nat.cast_ne_zero.mpr (by omega)
  have hle := roundIssues_le (Nat.le_max_left w (l + 1)) n
  have hrest : (100 : Rat) * ((n - roundIssues w (max w (l + 1)) n : Nat) / n) =
      100 - 100 * ipc w l n := by
    rw [ipc, Nat.cast_sub hle, sub_div, div_self hne]
    ring
  rw [← hrest]
  rfl

end Curves

/-! ## The curves of a sweep -/

/-- The plots of a sweep whose files can be written: every point has its three
entries, the measured IPC lies on or a little above the dashed line, more warps
never lower it and a longer pipeline never raises it. -/
theorem sweep_curves {canOpen : String → Bool} {binary : Process} {outputDir : String}
    {cycles : Int} {files files' : Cpp.Files} {results : Dict (Nat × Nat) (Dict String Value)}
    (hruns : Runs canOpen binary) (hpos : 1 ≤ cycles) (hint : cycles < 2 ^ 31)
    (hopen : ∀ e ∈ points, canOpen (statsPath outputDir e.1 e.2) = true)
    (h : runSweepCpp binary outputDir cycles files = some (results, files')) :
    ∃ curve : Nat × Nat → Rat,
      (∀ e ∈ points, ∃ stats, results.get e = some stats ∧
        stats.get "ipc" = some (.num (.float (curve e))) ∧
        stats.get "warp_efficiency" = some (.num (.float (100 * curve e))) ∧
        stats.get "stall_breakdown" = some (.dict
          [("data_hazard", .float (100 - 100 * curve e)), ("structural", .float 0),
            ("memory_latency", .float 0), ("no_ready_warp", .float 0)])) ∧
      (∀ e ∈ points, theory e.1 e.2 ≤ curve e ∧
        curve e ≤ theory e.1 e.2 + e.1 * (e.2 + 1 - e.1 : Nat) / ((e.2 + 1 : Nat) * cycles)) ∧
      (∀ w ∈ warpCounts, ∀ w' ∈ warpCounts, ∀ l ∈ memLatencies, w ≤ w' →
        curve (w, l) ≤ curve (w', l)) ∧
      ∀ w ∈ warpCounts, ∀ l ∈ memLatencies, ∀ l' ∈ memLatencies, l ≤ l' →
        curve (w, l') ≤ curve (w, l) := by
  have hresults : results = points.map fun e => (e, reported canOpen outputDir cycles e) :=
    (runSweepCpp_eq hruns h).1
  have hsize : ∀ w ∈ warpCounts, 1 ≤ w := by decide
  have hget : ∀ e ∈ points, results.get e = some (pointStats e.1 e.2 cycles.toNat) := by
    intro e he
    have hmeasured : Measured canOpen outputDir cycles e := ⟨hpos, hint, hopen e he⟩
    have hmem : (e, reported canOpen outputDir cycles e) ∈ results := by
      rw [hresults]
      exact List.mem_map_of_mem he
    rw [reported, if_pos hmeasured] at hmem
    refine Dict.get_of_mem ?_ hmem
    rw [hresults, keys_results]
    exact nodup_points
  have hcast : ((cycles.toNat : Nat) : Rat) = cycles := by
    have hnat := Int.toNat_of_nonneg (show 0 ≤ cycles by omega)
    exact_mod_cast congrArg (fun k : Int => (k : Rat)) hnat
  refine ⟨fun e => ipc e.1 e.2 cycles.toNat, fun e he => ⟨_, hget e he, ?_, ?_, ?_⟩,
    fun e he => ⟨?_, ?_⟩, fun w hw w' hw' l hl hle => ?_, fun w hw l hl l' hl' hle => ?_⟩
  · exact (get_pointStats e.1 e.2 _).1
  · exact (get_pointStats e.1 e.2 _).2
  · exact get_stall_breakdown (by omega)
  · exact theory_le_ipc (sized_points e he).1 (by omega)
  · rw [← hcast]
    exact ipc_le_theory_add (by omega)
  · exact ipc_mono (hsize w hw) hle
  · exact ipc_anti (hsize w hw) hle

/-- Two warps over eight stages in the default sweep. -/
theorem sweep_curves_default :
    ∃ r, runSweepCpp (simulator fun _ => true) "out" 2000 (fun _ => none) = some r ∧
      ∃ stats q, r.1.get (2, 8) = some stats ∧ stats.get "ipc" = some (.num (.float q)) ∧
        2 / 9 ≤ q ∧ q ≤ 2 / 9 + 14 / 18000 := by
  obtain ⟨⟨results, files'⟩, h⟩ := Option.isSome_iff_exists.mp
    (isSome_runSweepCpp (fun _ => true) "out" 2000 fun _ => none)
  obtain ⟨curve, hpoint, htheory, -⟩ :=
    sweep_curves (runs_simulator fun _ => true) (by decide) (by decide) (fun _ _ => rfl) h
  obtain ⟨stats, hget, hipc, -⟩ := hpoint (2, 8) (by decide)
  obtain ⟨hlow, hhigh⟩ := htheory (2, 8) (by decide)
  refine ⟨_, h, stats, curve (2, 8), hget, hipc, ?_, ?_⟩
  · norm_num [theory] at hlow
    exact hlow
  · norm_num [theory] at hhigh ⊢
    exact hhigh

end PerfSweep
end Simt
