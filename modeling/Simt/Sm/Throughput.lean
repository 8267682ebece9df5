import Simt.Sm.Accounting
import Mathlib.Analysis.SpecificLimits.Basic

/-
The throughput of the RAW-heavy workload.

Every warp may issue again `exec_latency + 1` ticks after its last issue, so the
warps issue one after the other in rounds of `max W (L + 1)` ticks.
-/

namespace Simt
namespace Cpp

/-! ## Rounds

In a round of `P` ticks the first `W` issue. -/

section Rounds

/-- The number of issuing ticks among the first `n`. -/
def roundIssues (W P n : Nat) : Nat := n / P * W + min (n % P) W

variable {W P : Nat}

theorem succ_mod (hP : 1 ≤ P) (n : Nat) :
    (n % P + 1 = P ∧ (n + 1) / P = n / P + 1 ∧ (n + 1) % P = 0) ∨
      (n % P + 1 < P ∧ (n + 1) / P = n / P ∧ (n + 1) % P = n % P + 1) := by
  have hlt := Nat.mod_lt n hP
  have hn : n + 1 = P * (n / P) + (n % P + 1) := by
    rw [← Nat.add_assoc, Nat.div_add_mod]
  by_cases hlast : n % P + 1 = P
  · left
    have hn' : n + 1 = P * (n / P + 1) := by rw [hn, hlast, Nat.mul_succ]
    rw [hn', Nat.mul_div_cancel_left _ hP, Nat.mul_mod_right]
    exact ⟨hlast, rfl, rfl⟩
  · right
    have hroom : n % P + 1 < P := by omega
    rw [hn, Nat.mul_add_div hP, Nat.div_eq_of_lt hroom, Nat.mul_add_mod, Nat.mod_eq_of_lt hroom]
    exact ⟨hroom, rfl, rfl⟩

theorem roundIssues_succ (hP : 1 ≤ P) (hWP : W ≤ P) (n : Nat) :
    roundIssues W P (n + 1) = roundIssues W P n + if n % P < W then 1 else 0 := by
  unfold roundIssues
  rcases succ_mod hP n with ⟨hk, hdiv, hmod⟩ | ⟨hk, hdiv, hmod⟩
  · rw [hdiv, hmod, Nat.zero_min, Nat.succ_mul]
    split <;> omega
  · rw [hdiv, hmod]
    split <;> omega

/-- The issue rate is `W / P` up to the start of a round. -/
theorem roundIssues_bounds (hP : 1 ≤ P) (hWP : W ≤ P) (n : Nat) :
    n * W ≤ roundIssues W P n * P ∧ roundIssues W P n * P ≤ n * W + W * (P - W) := by
  obtain ⟨d, rfl⟩ := Nat.exists_eq_add_of_le hWP
  have hk := Nat.mod_lt n hP
  have hn : n * W = n / (W + d) * W * (W + d) + n % (W + d) * W := by
    conv_lhs => rw [← Nat.div_add_mod n (W + d)]
    ring
  have hsub : W + d - W = d := Nat.add_sub_cancel_left W d
  rw [hn, hsub, roundIssues, Nat.add_mul]
  by_cases hle : n % (W + d) ≤ W
  · rw [Nat.min_eq_left hle]
    have hd := Nat.mul_le_mul_right d hle
    have hexp : n % (W + d) * (W + d) = n % (W + d) * W + n % (W + d) * d := Nat.mul_add _ _ _
    omega
  · rw [Nat.min_eq_right (by omega)]
    have hlow : n % (W + d) * W ≤ (W + d) * W := Nat.mul_le_mul_right W (Nat.le_of_lt hk)
    have hhigh : W * W ≤ n % (W + d) * W := Nat.mul_le_mul_right W (by omega)
    have hexp : W * (W + d) = W * W + W * d := Nat.mul_add _ _ _
    have hcomm : (W + d) * W = W * (W + d) := Nat.mul_comm _ _
    omega

open Filter Topology in
/-- The issue rate tends to `W / P`. -/
theorem tendsto_roundIssues (hP : 1 ≤ P) (hWP : W ≤ P) :
    Tendsto (fun n : Nat => (roundIssues W P n : ℝ) / n) atTop (𝓝 ((W : ℝ) / P)) := by
  have hPpos : (0 : ℝ) < P := by exact_mod_cast hP
  have hlim : Tendsto (fun n : Nat => (W : ℝ) / P + ((W * (P - W) : Nat) : ℝ) / P / n) atTop
      (𝓝 ((W : ℝ) / P)) := by
    have h0 := tendsto_const_div_atTop_nhds_zero_nat (((W * (P - W) : Nat) : ℝ) / P)
    simpa using h0.const_add ((W : ℝ) / P)
  refine tendsto_of_tendsto_of_tendsto_of_le_of_le' tendsto_const_nhds hlim ?_ ?_
  · filter_upwards [eventually_gt_atTop 0] with n hn
    have hnpos : (0 : ℝ) < n := by exact_mod_cast hn
    have hb : ((n * W : Nat) : ℝ) ≤ ((roundIssues W P n * P : Nat) : ℝ) := by
      exact_mod_cast (roundIssues_bounds hP hWP n).1
    push_cast at hb
    rw [div_le_div_iff₀ hPpos hnpos]
    linarith
  · filter_upwards [eventually_gt_atTop 0] with n hn
    have hnpos : (0 : ℝ) < n := by exact_mod_cast hn
    have hb : ((roundIssues W P n * P : Nat) : ℝ) ≤ ((n * W + W * (P - W) : Nat) : ℝ) := by
      exact_mod_cast (roundIssues_bounds hP hWP n).2
    have hsum : (W : ℝ) / P + ((W * (P - W) : Nat) : ℝ) / P / n =
        ((n * W + W * (P - W) : Nat) : ℝ) / (P * n) := by
      rw [Nat.cast_add, Nat.cast_mul n W]
      field_simp
    rw [hsum, div_le_div_iff₀ hnpos (by positivity)]
    have hmul := mul_le_mul_of_nonneg_right hb (le_of_lt hnpos)
    push_cast at hmul ⊢
    linarith

end Rounds

namespace MiniSM

variable {cfg : Config}

/-- The length of a round. -/
def period (cfg : Config) : Nat := max cfg.warps (cfg.execLatency + 1)

/-- The run of `main`. -/
abbrev mainRun (cfg : Config) : Nat → WarpInstrs cfg := fun _ => rawHeavy cfg

/-- The warp that issues at tick `t`. -/
def turn (cfg : Config) (t : Nat) : Option Nat :=
  if t % period cfg < cfg.warps then some (t % period cfg) else none

/-- The warp the pointer stands at in tick `t`. -/
def pointer (cfg : Config) (t : Nat) : Nat :=
  if t % period cfg < cfg.warps then t % period cfg else 0

theorem warps_le_period (cfg : Config) : cfg.warps ≤ period cfg := Nat.le_max_left _ _

theorem latency_lt_period (cfg : Config) : cfg.execLatency < period cfg := Nat.le_max_right _ _

/-- A round has idle ticks only when it is as long as the latency asks for. -/
theorem period_eq {k : Nat} (hk : cfg.warps ≤ k) (hlt : k < period cfg) :
    period cfg = cfg.execLatency + 1 := by
  unfold period at hlt ⊢
  omega

/-- A turn moves the pointer to the next warp, and the last one of a round back
to warp 0. -/
theorem pointer_succ (hW : 1 ≤ cfg.warps) (t : Nat) :
    pointer cfg (t + 1) =
      match turn cfg t with
      | some w => (w + 1) % cfg.warps
      | none => pointer cfg t := by
  have hWP := warps_le_period cfg
  have hP : 1 ≤ period cfg := Nat.le_trans hW hWP
  rw [pointer, pointer, turn]
  by_cases hk : t % period cfg < cfg.warps
  · simp only [if_pos hk]
    by_cases hwrap : t % period cfg + 1 = cfg.warps
    · rw [hwrap, Nat.mod_self]
      rcases succ_mod hP t with ⟨-, -, hm⟩ | ⟨-, -, hm⟩
      · rw [hm, ite_self]
      · rw [hm, if_neg (by omega)]
    · rw [Nat.mod_eq_of_lt (show t % period cfg + 1 < cfg.warps by omega)]
      rcases succ_mod hP t with ⟨hlast, -, hm⟩ | ⟨-, -, hm⟩
      · omega
      · rw [hm, if_pos (by omega)]
  · simp only [if_neg hk]
    rcases succ_mod hP t with ⟨-, -, hm⟩ | ⟨-, -, hm⟩
    · rw [hm, ite_self]
    · rw [hm, if_neg (by omega)]

section Main

variable (hW : 1 ≤ cfg.warps) (hL : 1 ≤ cfg.execLatency) (hR : 2 ≤ cfg.regs)

include hW hL hR

/-- While the warps have taken turns, `r0` of a warp is busy for `exec_latency`
ticks after each of its turns. -/
theorem isBusy_main {t : Nat}
    (hturn : ∀ s, s < t → ((machine cfg).outAt (mainRun cfg) s).issuedWarp = turn cfg s)
    {w : Nat} (hw : w < cfg.warps) :
    ((machine cfg).stateAt (mainRun cfg) t).isBusy w 0 = true ↔
      ∃ s, s < t ∧ t ≤ s + cfg.execLatency ∧ s % period cfg = w := by
  have hwrites : ∀ s, s < t → (Writes (mainRun cfg) w 0 s ↔ s % period cfg = w) := by
    intro s hs
    rw [Writes, hturn s hs, turn]
    constructor
    · intro hx
      obtain ⟨h, -⟩ := hx
      split_ifs at h
      exact Option.some.inj h
    · rintro rfl
      rw [if_pos hw]
      exact ⟨rfl, _, rawHeavy_getD hw, rfl, rfl⟩
  rw [isBusy_stateAt hW hL (fun _ => rawHeavy_inRange hR) hw (by omega)]
  constructor
  · intro hon
    obtain ⟨s, hs, hle, hset⟩ := Latch.inFlight hL hon
    exact ⟨s, hs, hle, (hwrites s hs).mp hset⟩
  · intro hx
    obtain ⟨s, hs, hle, hmod⟩ := hx
    refine Latch.of_inFlight ?_ ⟨s, hs, hle, (hwrites s hs).mpr hmod⟩
    -- Two turns of a warp are a multiple of a round apart.
    intro a b ha hb hab hbt
    have hmoda := (hwrites a (by omega)).mp ha
    have hmodb := (hwrites b hbt).mp hb
    have hdvd : period cfg ∣ b - a :=
      Nat.dvd_of_mod_eq_zero (Nat.sub_mod_eq_zero_of_mod_eq (hmodb.trans hmoda.symm))
    have hle := Nat.le_of_dvd (by omega) hdvd
    have := latency_lt_period cfg
    omega

theorem isBusy_main_one (t : Nat) {w : Nat} (hw : w < cfg.warps) :
    ((machine cfg).stateAt (mainRun cfg) t).isBusy w 1 = false := by
  apply isBusy_of_no_write hW hL (fun _ => rawHeavy_inRange hR) hw hR
  intro s _ _ hset
  obtain ⟨-, m, hm, -, hdst⟩ := hset
  rw [rawHeavy_getD hw] at hm
  obtain rfl := Option.some.inj hm
  exact absurd hdst (by decide)

theorem eligible_main (t : Nat) {w : Nat} (hw : w < cfg.warps) :
    ((machine cfg).stateAt (mainRun cfg) t).eligible (rawHeavy cfg) w =
      !((machine cfg).stateAt (mainRun cfg) t).isBusy w 0 := by
  rw [eligible, rawHeavy_getD hw]
  simp [isBusy_main_one hW hL hR t hw]

/-- One more turn: the pointer stands at the warp whose turn it is, which is
free, and after the last turn of a round all warps are busy. -/
theorem issuedWarp_main {t : Nat}
    (hturn : ∀ s, s < t → ((machine cfg).outAt (mainRun cfg) s).issuedWarp = turn cfg s)
    (hptr : ((machine cfg).stateAt (mainRun cfg) t).scheduler.rrPtr = pointer cfg t) :
    ((machine cfg).outAt (mainRun cfg) t).issuedWarp = turn cfg t := by
  have hv := valid_stateAt hW (u := mainRun cfg) (fun _ => rawHeavy_inRange hR) t
  have hmod := Nat.mod_lt t (Nat.lt_of_lt_of_le hW (warps_le_period cfg))
  have hle := Nat.mod_le t (period cfg)
  rw [outAt_issuedWarp, issuedWarp_eq hv, hptr, pointer, turn]
  by_cases hk : t % period cfg < cfg.warps
  · rw [if_pos hk, if_pos hk]
    apply RoundRobin.first_start hk
    rw [eligible_main hW hL hR t hk, Bool.not_eq_true', ← Bool.not_eq_true,
      isBusy_main hW hL hR hturn hk]
    intro h
    obtain ⟨s, hs, hnear, hsame⟩ := h
    have hdvd : period cfg ∣ t - s :=
      Nat.dvd_of_mod_eq_zero (Nat.sub_mod_eq_zero_of_mod_eq hsame.symm)
    have hfar := Nat.le_of_dvd (by omega) hdvd
    have := latency_lt_period cfg
    omega
  · rw [if_neg hk, if_neg hk]
    refine (RoundRobin.first_eq_none hW).mpr fun w hw => ?_
    rw [eligible_main hW hL hR t hw, Bool.not_eq_false', isBusy_main hW hL hR hturn hw]
    -- The turn of `w` in this round.
    have hsum : t = period cfg * (t / period cfg) + t % period cfg := (Nat.div_add_mod t _).symm
    have hround := period_eq (Nat.le_of_not_lt hk) hmod
    refine ⟨period cfg * (t / period cfg) + w, by omega, by omega, ?_⟩
    rw [Nat.mul_add_mod, Nat.mod_eq_of_lt (by omega)]

theorem issuedWarp_mainRun (t : Nat) :
    ((machine cfg).outAt (mainRun cfg) t).issuedWarp = turn cfg t := by
  have hboth : ∀ t,
      (∀ s, s < t → ((machine cfg).outAt (mainRun cfg) s).issuedWarp = turn cfg s) ∧
        ((machine cfg).stateAt (mainRun cfg) t).scheduler.rrPtr = pointer cfg t := by
    intro t
    induction t with
    | zero =>
      refine ⟨fun s hs => absurd hs (Nat.not_lt_zero s), ?_⟩
      rw [pointer, Nat.zero_mod, ite_self]
      rfl
    | succ t ih =>
      have hissue := issuedWarp_main hW hL hR ih.1 ih.2
      refine ⟨fun s hs => ?_, ?_⟩
      · rcases Nat.lt_succ_iff_lt_or_eq.mp hs with hlt | rfl
        · exact ih.1 s hlt
        · exact hissue
      · rw [pointer_succ hW, ← hissue, ← ih.2]
        exact tick_rrPtr
  exact issuedWarp_main hW hL hR (hboth t).1 (hboth t).2

theorem isSome_issuedWarp_mainRun (t : Nat) :
    ((machine cfg).outAt (mainRun cfg) t).issuedWarp.isSome =
      decide (t % period cfg < cfg.warps) := by
  rw [issuedWarp_mainRun hW hL hR, turn]
  split <;> simp_all

theorem held_mainRun {t : Nat} (ht : ¬ t % period cfg < cfg.warps) :
    (List.range cfg.warps).any
      (((machine cfg).stateAt (mainRun cfg) t).held (rawHeavy cfg)) = true := by
  have hv := valid_stateAt hW (u := mainRun cfg) (fun _ => rawHeavy_inRange hR) t
  have hnone : ((machine cfg).stateAt (mainRun cfg) t).issuedWarp (rawHeavy cfg) = none := by
    have h := issuedWarp_mainRun hW hL hR t
    rw [turn, if_neg ht] at h
    exact h
  rw [issuedWarp_eq hv] at hnone
  have hel := (RoundRobin.first_eq_none hv.rrPtr).mp hnone 0 hW
  refine List.any_eq_true.mpr ⟨0, List.mem_range.mpr hW, ?_⟩
  by_contra hheld
  rw [Bool.not_eq_true] at hheld
  have hsome : ((rawHeavy cfg).getD 0 none).isSome = true := by
    rw [rawHeavy_getD hW]
    rfl
  have hfree := eligible_of_not_held hsome hheld
  rw [hel] at hfree
  exact absurd hfree Bool.false_ne_true

theorem countP_mainRun (n : Nat) :
    ((List.range n).countP fun t => ((machine cfg).outAt (mainRun cfg) t).issuedWarp.isSome) =
      roundIssues cfg.warps (period cfg) n := by
  have hP : 1 ≤ period cfg := Nat.le_trans hW (warps_le_period cfg)
  induction n with
  | zero => simp [roundIssues]
  | succ n ih =>
    rw [List.range_succ, List.countP_append, ih, roundIssues_succ hP (warps_le_period cfg),
      List.countP_singleton, isSome_issuedWarp_mainRun hW hL hR]
    simp only [decide_eq_true_eq]

/-- A tick without an issue is a data stall. -/
theorem countP_stall_mainRun (n : Nat) :
    ((List.range n).countP fun t => ((machine cfg).outAt (mainRun cfg) t).issuedWarp.isNone &&
        (List.range cfg.warps).any (((machine cfg).stateAt (mainRun cfg) t).held (rawHeavy cfg))) =
      n - roundIssues cfg.warps (period cfg) n := by
  have hstall : ∀ t, (((machine cfg).outAt (mainRun cfg) t).issuedWarp.isNone &&
      (List.range cfg.warps).any (((machine cfg).stateAt (mainRun cfg) t).held (rawHeavy cfg))) =
        !((machine cfg).outAt (mainRun cfg) t).issuedWarp.isSome := by
    intro t
    rw [← Option.not_isSome, isSome_issuedWarp_mainRun hW hL hR]
    by_cases hk : t % period cfg < cfg.warps
    · rw [decide_eq_true hk]
      rfl
    · rw [held_mainRun hW hL hR hk, Bool.and_true]
  have hall := List.length_eq_countP_add_countP
    (fun t => ((machine cfg).outAt (mainRun cfg) t).issuedWarp.isSome) (l := List.range n)
  rw [List.length_range, countP_mainRun hW hL hR] at hall
  simp only [hstall, decide_not, Bool.decide_eq_true] at hall ⊢
  omega

/-- No tick is without work. -/
theorem countP_idle_mainRun (n : Nat) :
    ((List.range n).countP fun t => ((machine cfg).outAt (mainRun cfg) t).issuedWarp.isNone &&
        !(List.range cfg.warps).any (((machine cfg).stateAt (mainRun cfg) t).held (rawHeavy cfg))) =
      0 := by
  rw [List.countP_eq_zero]
  intro t _
  rw [← Option.not_isSome, isSome_issuedWarp_mainRun hW hL hR]
  by_cases hk : t % period cfg < cfg.warps
  · rw [decide_eq_true hk]
    exact Bool.false_ne_true
  · rw [held_mainRun hW hL hR hk, Bool.not_true, Bool.and_false]
    exact Bool.false_ne_true

theorem counters_mainRun (n : Nat) :
    ((machine cfg).stateAt (mainRun cfg) n).counters =
      { cycles := BitVec.ofNat 64 n
        instructions := BitVec.ofNat 64 (roundIssues cfg.warps (period cfg) n)
        stallData := BitVec.ofNat 64 (n - roundIssues cfg.warps (period cfg) n)
        cyclesIssuing := BitVec.ofNat 64 (roundIssues cfg.warps (period cfg) n)
        wbCount :=
          BitVec.ofNat 64 (roundIssues cfg.warps (period cfg) (n - cfg.execLatency)) } := by
  rw [counters_eq hW (fun _ => rawHeavy_inRange hR)]
  simp only [countP_mainRun hW hL hR, countP_writeback hL, countP_stall_mainRun hW hL hR,
    countP_idle_mainRun hW hL hR]
  rfl

end Main

/-- `W / P` is the bound of the README. -/
theorem warps_div_period (hW : 1 ≤ cfg.warps) :
    (cfg.warps : ℝ) / period cfg = min 1 ((cfg.warps : ℝ) / (cfg.execLatency + 1)) := by
  have hWpos : (0 : ℝ) < cfg.warps := by exact_mod_cast hW
  have hLpos : (0 : ℝ) < (cfg.execLatency : ℝ) + 1 := by positivity
  rcases Nat.le_total cfg.warps (cfg.execLatency + 1) with h | h
  · have hreal : (cfg.warps : ℝ) ≤ cfg.execLatency + 1 := by exact_mod_cast h
    rw [period, Nat.max_eq_right h, min_eq_right ((div_le_one hLpos).mpr hreal)]
    push_cast
    rfl
  · have hreal : (cfg.execLatency : ℝ) + 1 ≤ cfg.warps := by exact_mod_cast h
    rw [period, Nat.max_eq_left h, min_eq_left ((one_le_div hLpos).mpr hreal), div_self hWpos.ne']

open Filter Topology in
/-- The run of `main` in closed form: who issues, all counters, and the issue
rate with its limit. -/
theorem raw_heavy_throughput (hW : 1 ≤ cfg.warps) (hL : 1 ≤ cfg.execLatency) (hR : 2 ≤ cfg.regs) :
    (∀ t, ((machine cfg).outAt (mainRun cfg) t).issuedWarp =
        if t % period cfg < cfg.warps then some (t % period cfg) else none) ∧
      (∀ n, ((List.range n).countP fun t =>
        ((machine cfg).outAt (mainRun cfg) t).issuedWarp.isSome) =
          roundIssues cfg.warps (period cfg) n) ∧
      (∀ n, ((machine cfg).stateAt (mainRun cfg) n).counters =
        { cycles := BitVec.ofNat 64 n
          instructions := BitVec.ofNat 64 (roundIssues cfg.warps (period cfg) n)
          stallData := BitVec.ofNat 64 (n - roundIssues cfg.warps (period cfg) n)
          stallNoWarp := 0
          cyclesIssuing := BitVec.ofNat 64 (roundIssues cfg.warps (period cfg) n)
          wbCount := BitVec.ofNat 64 (if n < cfg.execLatency then 0
            else roundIssues cfg.warps (period cfg) (n - cfg.execLatency)) }) ∧
      (∀ n, n * cfg.warps ≤ roundIssues cfg.warps (period cfg) n * period cfg ∧
        roundIssues cfg.warps (period cfg) n * period cfg ≤
          n * cfg.warps + cfg.warps * (period cfg - cfg.warps)) ∧
      Tendsto (fun n : Nat => (roundIssues cfg.warps (period cfg) n : ℝ) / n) atTop
        (𝓝 (min 1 ((cfg.warps : ℝ) / (cfg.execLatency + 1)))) := by
  have hP : 1 ≤ period cfg := Nat.le_trans hW (warps_le_period cfg)
  refine ⟨issuedWarp_mainRun hW hL hR, countP_mainRun hW hL hR, fun n => ?_,
    roundIssues_bounds hP (warps_le_period cfg), ?_⟩
  · have hwb : (if n < cfg.execLatency then 0
        else roundIssues cfg.warps (period cfg) (n - cfg.execLatency)) =
        roundIssues cfg.warps (period cfg) (n - cfg.execLatency) := by
      by_cases hn : n < cfg.execLatency
      · rw [if_pos hn, Nat.sub_eq_zero_of_le (Nat.le_of_lt hn)]
        simp [roundIssues]
      · exact if_neg hn
    rw [hwb]
    exact counters_mainRun hW hL hR n
  · rw [← warps_div_period hW]
    exact tendsto_roundIssues hP (warps_le_period cfg)

/-- Two warps over two stages: two issues in every round of three ticks. -/
theorem raw_heavy_two_warps :
    ((machine { warps := 2, execLatency := 2 }).stateAt (mainRun _) 7).counters.instructions =
      5 := by
  rw [(@raw_heavy_throughput { warps := 2, execLatency := 2 } (by decide) (by decide)
    (by decide)).2.2.1 7]
  decide

end MiniSM
end Cpp
end Simt
