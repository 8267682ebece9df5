import Simt.Lib.Latch
import Simt.Sm.TickSpec

/-
The state of the SM in terms of what was issued before.

A pipeline stage holds the entry issued a fixed number of ticks ago and a busy
bit is the latch of the writes of its register.
-/

namespace Simt
namespace Cpp
namespace MiniSM

variable {cfg : Config}

section Run

variable (u : Nat → WarpInstrs cfg)

/-- The entry issued at tick `t`. -/
def entryAt (t : Nat) : Option WbResult := ((machine cfg).stateAt u t).issuedEntry (u t)

/-- `w` issues a write of `r` at tick `t`. -/
def Writes (w r t : Nat) : Prop :=
  ((machine cfg).outAt u t).issuedWarp = some w ∧
    ∃ m, (u t).getD w none = some m ∧ m.hasDst = true ∧ m.dst = r

end Run

section History

variable {u : Nat → WarpInstrs cfg}

theorem valid_stateAt (hW : 1 ≤ cfg.warps) (hu : ∀ t, InRange (u t)) (t : Nat) :
    ((machine cfg).stateAt u t).Valid :=
  Mealy.stateAt_invariant (fresh_valid hW) (fun _ _ => tick_valid) hu t

theorem outAt_issuedWarp (t : Nat) :
    ((machine cfg).outAt u t).issuedWarp = ((machine cfg).stateAt u t).issuedWarp (u t) := rfl

theorem outAt_writeback (t : Nat) :
    ((machine cfg).outAt u t).writeback = ((machine cfg).stateAt u t).stage 0 := rfl

theorem writes_iff (hW : 1 ≤ cfg.warps) (hu : ∀ t, InRange (u t)) {w r t : Nat} :
    Writes u w r t ↔ entryAt u t = some ⟨w, r, true⟩ := by
  rw [entryAt, issuedEntry_eq_some (valid_stateAt hW hu t), Writes, outAt_issuedWarp]
  constructor
  · intro h
    obtain ⟨hw, m, hm, hd, hr⟩ := h
    exact ⟨hw, m, hm, hr, hd⟩
  · intro h
    obtain ⟨hw, m, hm, hr, hd⟩ := h
    exact ⟨hw, m, hm, hd, hr⟩

/-- A stage holds the entry of as many ticks ago as it has moved. -/
theorem stage_stateAt {t i : Nat} (hi : i < cfg.execLatency) :
    ((machine cfg).stateAt u t).stage i =
      if cfg.execLatency ≤ t + i then entryAt u (t + i - cfg.execLatency) else none := by
  refine delay_eq (fun t i => ((machine cfg).stateAt u t).stage i) ?_ ?_ ?_ hi
  · exact fun i _ => stage_fresh i
  · intro t i hlt
    exact (tick_stage (Nat.lt_of_succ_lt hlt)).trans (if_neg (Nat.ne_of_lt hlt))
  · intro t i hlast
    exact (tick_stage (by omega)).trans (if_pos hlast)

theorem writeback_outAt (hL : 1 ≤ cfg.execLatency) (t : Nat) :
    ((machine cfg).outAt u t).writeback =
      if cfg.execLatency ≤ t then entryAt u (t - cfg.execLatency) else none := by
  rw [outAt_writeback, stage_stateAt hL, Nat.add_zero]

/-- A busy bit is the latch of the writes of its register. -/
theorem isBusy_stateAt (hW : 1 ≤ cfg.warps) (hL : 1 ≤ cfg.execLatency) (hu : ∀ t, InRange (u t))
    {w r : Nat} (hw : w < cfg.warps) (hr : r < cfg.regs) (t : Nat) :
    ((machine cfg).stateAt u t).isBusy w r = true ↔ Latch (Writes u w r) cfg.execLatency t := by
  induction t with
  | zero => exact iff_of_false (by simp [machine, isBusy_fresh]) id
  | succ t ih =>
    have hdue : ((machine cfg).stateAt u t).stage 0 = some ⟨w, r, true⟩ ↔
        ∃ s, s + cfg.execLatency = t ∧ Writes u w r s := by
      rw [stage_stateAt hL, Nat.add_zero]
      constructor
      · intro h
        by_cases hle : cfg.execLatency ≤ t
        · rw [if_pos hle] at h
          exact ⟨t - cfg.execLatency, Nat.sub_add_cancel hle, (writes_iff hW hu).mpr h⟩
        · rw [if_neg hle] at h
          exact absurd h (by simp)
      · intro hx
        obtain ⟨s, rfl, hs⟩ := hx
        rw [if_pos (Nat.le_add_left _ s), Nat.add_sub_cancel]
        exact (writes_iff hW hu).mp hs
    have hstep := tick_isBusy (valid_stateAt hW hu t) (hu t) hw hr
    rw [← ih.symm, ne_eq, hdue] at hstep
    exact hstep.trans (or_congr_left (writes_iff hW hu).symm)

theorem isBusy_of_no_write (hW : 1 ≤ cfg.warps) (hL : 1 ≤ cfg.execLatency)
    (hu : ∀ t, InRange (u t)) {w r t : Nat} (hw : w < cfg.warps) (hr : r < cfg.regs)
    (hno : ∀ s, s < t → t ≤ s + cfg.execLatency → ¬ Writes u w r s) :
    ((machine cfg).stateAt u t).isBusy w r = false := by
  rw [← Bool.not_eq_true, isBusy_stateAt hW hL hu hw hr]
  intro hon
  obtain ⟨s, hs, hle, hset⟩ := Latch.inFlight hL hon
  exact hno s hs hle hset

/-- No register of a warp that has issued nothing for `exec_latency` ticks is
busy. -/
theorem isBusy_of_quiet (hW : 1 ≤ cfg.warps) (hL : 1 ≤ cfg.execLatency)
    (hu : ∀ t, InRange (u t)) {w r t : Nat} (hw : w < cfg.warps) (hr : r < cfg.regs)
    (hquiet : ∀ s, s < t → t ≤ s + cfg.execLatency →
      ((machine cfg).outAt u s).issuedWarp ≠ some w) :
    ((machine cfg).stateAt u t).isBusy w r = false :=
  isBusy_of_no_write hW hL hu hw hr fun s hs hle hset => hquiet s hs hle hset.1

end History

/-! ## The meaning of a busy bit -/

/-- Runs in which a warp has issued the same writes have the same busy bits of
the warp. -/
theorem isBusy_congr (hW : 1 ≤ cfg.warps) (hL : 1 ≤ cfg.execLatency) {u v : Nat → WarpInstrs cfg}
    (hu : ∀ t, InRange (u t)) (hv : ∀ t, InRange (v t)) {w r t : Nat} (hw : w < cfg.warps)
    (hr : r < cfg.regs) (hsame : ∀ s, s < t → (Writes u w r s ↔ Writes v w r s)) :
    ((machine cfg).stateAt u t).isBusy w r = ((machine cfg).stateAt v t).isBusy w r := by
  rw [Bool.eq_iff_iff, isBusy_stateAt hW hL hu hw hr, isBusy_stateAt hW hL hv hw hr]
  exact Latch.congr hsame

/-- They block the same instruction of the warp. -/
theorem blocked_congr (hW : 1 ≤ cfg.warps) (hL : 1 ≤ cfg.execLatency) {u v : Nat → WarpInstrs cfg}
    (hu : ∀ t, InRange (u t)) (hv : ∀ t, InRange (v t)) {w t : Nat} (hw : w < cfg.warps)
    (hinstr : (u t).getD w none = (v t).getD w none)
    (hsame : ∀ r s, s < t → (Writes u w r s ↔ Writes v w r s)) :
    ((machine cfg).stateAt u t).eligible (u t) w = ((machine cfg).stateAt v t).eligible (v t) w ∧
      ((machine cfg).stateAt u t).held (u t) w = ((machine cfg).stateAt v t).held (v t) w := by
  rw [eligible, held, eligible, held, ← hinstr]
  cases hm : (u t).getD w none with
  | none => exact ⟨rfl, rfl⟩
  | some m =>
    obtain ⟨h0, h1, -⟩ := hu t w m hm
    have hbusy : ∀ r, r < cfg.regs →
        ((machine cfg).stateAt u t).isBusy w r = ((machine cfg).stateAt v t).isBusy w r :=
      fun r hr => isBusy_congr hW hL hu hv hw hr (hsame r)
    dsimp only
    rw [hbusy m.src0 h0, hbusy m.src1 h1]
    exact ⟨rfl, rfl⟩

/-- A busy bit is set exactly when no writeback came after the latest write.  So
it is clear once no write is in flight, and a write sets it whatever is written
back in the same tick.  An instruction can issue when the bits of its sources are
clear, and nothing but the writes of its warp matters to that. -/
theorem busy_iff (hW : 1 ≤ cfg.warps) (hL : 1 ≤ cfg.execLatency) {u : Nat → WarpInstrs cfg}
    (hu : ∀ t, InRange (u t)) {w r : Nat} (hw : w < cfg.warps) (hr : r < cfg.regs) (t : Nat) :
    (((machine cfg).stateAt u t).isBusy w r = true ↔
        ∃ s, s < t ∧ Writes u w r s ∧ (∀ q, s < q → q < t → ¬ Writes u w r q) ∧
          ¬ ∃ s', s' ≤ s ∧ Writes u w r s' ∧ s < s' + cfg.execLatency ∧
            s' + cfg.execLatency < t) ∧
      ((∀ s, s < t → Writes u w r s → s + cfg.execLatency < t) →
        ((machine cfg).stateAt u t).isBusy w r = false) ∧
      (Writes u w r t → ((machine cfg).stateAt u (t + 1)).isBusy w r = true) ∧
      (∀ v : Nat → WarpInstrs cfg, (∀ q, InRange (v q)) →
        (∀ s, s < t → (Writes u w r s ↔ Writes v w r s)) →
          ((machine cfg).stateAt u t).isBusy w r = ((machine cfg).stateAt v t).isBusy w r) ∧
      (∀ m, (u t).getD w none = some m →
        ((((machine cfg).stateAt u t).canIssueVec (u t)).getD w false = true ↔
          ((machine cfg).stateAt u t).isBusy w m.src0 = false ∧
            ((machine cfg).stateAt u t).isBusy w m.src1 = false)) ∧
      ∀ v : Nat → WarpInstrs cfg, (∀ q, InRange (v q)) →
        (u t).getD w none = (v t).getD w none →
        (∀ r' s, s < t → (Writes u w r' s ↔ Writes v w r' s)) →
          (((machine cfg).stateAt u t).canIssueVec (u t)).getD w false =
              (((machine cfg).stateAt v t).canIssueVec (v t)).getD w false ∧
            ((machine cfg).stateAt u t).held (u t) w =
              ((machine cfg).stateAt v t).held (v t) w := by
  refine ⟨?_, ?_, ?_, ?_, ?_, ?_⟩
  · rw [isBusy_stateAt hW hL hu hw hr]
    exact Latch.iff_latest hL
  · intro hold
    exact isBusy_of_no_write hW hL hu hw hr fun s hs hle hset =>
      absurd (hold s hs hset) (Nat.not_lt.mpr hle)
  · intro hset
    rw [isBusy_stateAt hW hL hu hw hr]
    exact Or.inl hset
  · intro v hv hsame
    exact isBusy_congr hW hL hu hv hw hr hsame
  · intro m hm
    rw [canIssueVec_getD hw, eligible, hm, Bool.and_eq_true, Bool.not_eq_true', Bool.not_eq_true']
  · intro v hv hinstr hsame
    rw [canIssueVec_getD hw, canIssueVec_getD hw]
    exact blocked_congr hW hL hu hv hw hinstr hsame

/-- The first issue of the workload makes `r0` of warp 0 busy. -/
theorem busy_after_first_issue :
    ((machine {}).stateAt (fun _ => rawHeavy {}) 1).isBusy 0 0 = true :=
  (@busy_iff {} (by decide) (by decide) _ (fun _ => rawHeavy_inRange (by decide)) 0 0 (by decide)
    (by decide) 0).2.2.1 ⟨by decide +kernel, _, rawHeavy_getD (by decide), rfl, rfl⟩

end MiniSM
end Cpp
end Simt
