import Simt.Sm.Arbiter
import Simt.Sm.History

/-
No warp starves: its registers are free a pipeline length after its last issue,
and from then on the round-robin pointer closes in on it in every tick.
-/

namespace Simt
namespace Cpp
namespace MiniSM

variable {cfg : Config} {sm : MiniSM cfg} {is : WarpInstrs cfg} {w : Nat}

theorem eligible_of_free (hi : InRange is) (hsome : (is.getD w none).isSome = true)
    (hfree : ∀ r, r < cfg.regs → sm.isBusy w r = false) : sm.eligible is w = true := by
  obtain ⟨m, hm⟩ := Option.isSome_iff_exists.mp hsome
  obtain ⟨h0, h1, -⟩ := hi w m hm
  simp [eligible, hm, hfree _ h0, hfree _ h1]

/-- A warp that is eligible in as many ticks in a row as there are warps issues
in one of them. -/
theorem exists_issue_of_eligible (hW : 1 ≤ cfg.warps) {u : Nat → WarpInstrs cfg}
    (hu : ∀ t, InRange (u t)) (hw : w < cfg.warps) {t₀ : Nat}
    (hel : ∀ k, k < cfg.warps →
      ((machine cfg).stateAt u (t₀ + k)).eligible (u (t₀ + k)) w = true) :
    ∃ k, k < cfg.warps ∧ ((machine cfg).outAt u (t₀ + k)).issuedWarp = some w := by
  have hrequests : ∀ k, k < cfg.warps →
      (((machine cfg).stateAt u (t₀ + k)).requests (u (t₀ + k))).eligible w = true := by
    intro k hk
    exact (selected_iff (valid_stateAt hW hu _) hw).trans (hel k hk)
  obtain ⟨k, hk, hselected⟩ := WarpScheduler.selected_within hW
    (fun t => ((machine cfg).stateAt u t).requests (u t)) hw hrequests
  exact ⟨k, hk, (issuedWarp_outAt (t₀ + k)).trans hselected⟩

/-- A warp that presents an instruction in every tick of a window of
`exec_latency + warps` ticks issues in one of them. -/
theorem no_starvation (hW : 1 ≤ cfg.warps) (hL : 1 ≤ cfg.execLatency)
    {u : Nat → WarpInstrs cfg} (hu : ∀ t, InRange (u t)) (hw : w < cfg.warps) (t₀ : Nat)
    (hpresent : ∀ t, t₀ ≤ t → t < t₀ + (cfg.execLatency + cfg.warps) →
      ((u t).getD w none).isSome = true) :
    ∃ t, t₀ ≤ t ∧ t < t₀ + (cfg.execLatency + cfg.warps) ∧
      ((machine cfg).outAt u t).issuedWarp = some w := by
  by_contra hno
  have hquiet : ∀ t, t₀ ≤ t → t < t₀ + (cfg.execLatency + cfg.warps) →
      ((machine cfg).outAt u t).issuedWarp ≠ some w :=
    fun t h1 h2 h => hno ⟨t, h1, h2, h⟩
  -- After `exec_latency` ticks of the window every register of `w` is free.
  have heligible : ∀ k, k < cfg.warps →
      ((machine cfg).stateAt u (t₀ + cfg.execLatency + k)).eligible
        (u (t₀ + cfg.execLatency + k)) w = true := by
    intro k hk
    refine eligible_of_free (hu _) (hpresent _ (by omega) (by omega)) fun r hr => ?_
    exact isBusy_of_quiet hW hL hu hw hr fun s hs hle => hquiet s (by omega) (by omega)
  obtain ⟨k, hk, hissue⟩ := exists_issue_of_eligible hW hu hw heligible
  exact hquiet _ (by omega) (by omega) hissue

/-- Warp 3 of the workload issues in one of the first eight ticks. -/
theorem no_starvation_last_warp :
    ∃ t, 0 ≤ t ∧ t < 0 + (4 + 4) ∧
      ((machine {}).outAt (fun _ => rawHeavy {}) t).issuedWarp = some 3 :=
  @no_starvation {} 3 (by decide) (by decide) _ (fun _ => rawHeavy_inRange (by decide))
    (by decide) 0 fun _ _ _ => by rw [rawHeavy_getD (by decide), Option.isSome_some]

end MiniSM
end Cpp
end Simt
