import Simt.Lib.Mealy
import Simt.Sm.EdgeSpec
import Simt.Sm.TickSpec

/-
Bounded overtaking in the round-robin arbiter: calls of `select`, each followed
by `advance` on the selected warp, on any sequence of eligibility vectors.
-/

namespace Simt
namespace Cpp
namespace WarpScheduler

variable {cfg : Config}

/-- The arguments of one call of `select`. -/
structure Requests (cfg : Config) where
  hasInstr : Vector Bool cfg.warps
  ready : Vector Bool cfg.warps
  canIssue : Vector Bool cfg.warps

def Requests.eligible (r : Requests cfg) (w : Nat) : Bool :=
  r.hasInstr.getD w false && r.ready.getD w false && r.canIssue.getD w false

/-- The caller's half of the protocol: `advance` on a selected warp. -/
def serve (s : WarpScheduler cfg) : Option Nat → WarpScheduler cfg
  | some w => s.advance w
  | none => s

/-- `select` and `advance` in turn, from reset on. -/
def arbiter (cfg : Config) : Mealy (WarpScheduler cfg) (Requests cfg) (Option Nat) where
  init := (fresh cfg).reset
  next s r := s.serve (s.select r.hasInstr r.ready r.canIssue)
  out s r := s.select r.hasInstr r.ready r.canIssue

/-! ## Runs of the arbiter -/

section Run

variable (hW : 1 ≤ cfg.warps) (u : Nat → Requests cfg)

theorem rrPtr_after {t w : Nat} (h : (arbiter cfg).outAt u t = some w) :
    ((arbiter cfg).stateAt u (t + 1)).rrPtr = (w + 1) % cfg.warps := by
  have hselect : ((arbiter cfg).stateAt u t).select (u t).hasInstr (u t).ready (u t).canIssue =
      some w := h
  show (serve _ (select _ _ _ _)).rrPtr = _
  rw [hselect]
  rfl

include hW

theorem select_eq_first (s : WarpScheduler cfg) (r : Requests cfg) :
    s.select r.hasInstr r.ready r.canIssue = RoundRobin.first cfg.warps s.rrPtr r.eligible :=
  s.select_eq hW fun _ _ => rfl

theorem rrPtr_serve {s : WarpScheduler cfg} (h : s.rrPtr < cfg.warps) (issued : Option Nat) :
    (s.serve issued).rrPtr < cfg.warps := by
  cases issued with
  | none => exact h
  | some w => exact Nat.mod_lt _ hW

theorem rrPtr_lt (t : Nat) : ((arbiter cfg).stateAt u t).rrPtr < cfg.warps :=
  Mealy.stateAt_invariant (M := arbiter cfg) (P := fun s : WarpScheduler cfg => s.rrPtr < cfg.warps)
    (Q := fun _ => True) hW (fun _ _ hs _ => rrPtr_serve hW hs _) (fun _ => trivial) t

theorem outAt_eq_chosen (t : Nat) :
    (arbiter cfg).outAt u t =
      RoundRobin.chosen (fun t => ((arbiter cfg).stateAt u t).rrPtr) (fun t => (u t).eligible)
        cfg.warps t :=
  select_eq_first hW _ _

theorem chosen_next (t w : Nat)
    (h : RoundRobin.chosen (fun t => ((arbiter cfg).stateAt u t).rrPtr) (fun t => (u t).eligible)
      cfg.warps t = some w) :
    ((arbiter cfg).stateAt u (t + 1)).rrPtr = (w + 1) % cfg.warps :=
  rrPtr_after u ((outAt_eq_chosen hW u t).trans h)

/-- A warp that is eligible in as many calls in a row as there are warps is
selected in one of them. -/
theorem selected_within {w : Nat} (hw : w < cfg.warps) {t₀ : Nat}
    (hel : ∀ k, k < cfg.warps → (u (t₀ + k)).eligible w = true) :
    ∃ k, k < cfg.warps ∧ (arbiter cfg).outAt u (t₀ + k) = some w := by
  simp only [outAt_eq_chosen hW u]
  exact RoundRobin.served_within (rrPtr_lt hW u) (chosen_next hW u) hw hel

end Run

/-- The pointer stays a warp, no call turns every warp away while one is
eligible, and a warp that stays eligible without being selected sees each other
warp selected at most once. -/
theorem bounded_overtaking (hW : 1 ≤ cfg.warps) (u : Nat → Requests cfg) :
    (∀ t, ((arbiter cfg).stateAt u t).rrPtr < cfg.warps) ∧
      (∀ t, (arbiter cfg).outAt u t = none ↔ ∀ w, w < cfg.warps → (u t).eligible w = false) ∧
      ∀ w, w < cfg.warps → ∀ t₀ m,
        (∀ k, k < m → (u (t₀ + k)).eligible w = true ∧ (arbiter cfg).outAt u (t₀ + k) ≠ some w) →
        (∀ i j v, i < j → j < m → (arbiter cfg).outAt u (t₀ + i) = some v →
          (arbiter cfg).outAt u (t₀ + j) ≠ some v) ∧
        m < cfg.warps := by
  have hrr := rrPtr_lt hW u
  have hnext := chosen_next hW u
  simp only [outAt_eq_chosen hW u]
  refine ⟨hrr, fun t => RoundRobin.first_eq_none (hrr t), fun w hw t₀ m hwait => ⟨?_, ?_⟩⟩
  · intro i j v hij hj hv
    exact RoundRobin.Waits.chosen_ne hrr hnext hw hwait hij hj hv
  · exact RoundRobin.Waits.lt hrr hnext hw hwait

/-- All warps stay eligible, and warp 3 is still waiting after three calls. -/
theorem bounded_overtaking_all_eligible :
    (∀ i j v, i < j → j < 3 → (arbiter {}).outAt (fun _ => ⟨.replicate _ true, .replicate _ true,
        .replicate _ true⟩) (0 + i) = some v →
      (arbiter {}).outAt (fun _ => ⟨.replicate _ true, .replicate _ true, .replicate _ true⟩)
        (0 + j) ≠ some v) ∧
      3 < 4 :=
  (@bounded_overtaking {} (by decide) _).2.2 3 (by decide) 0 3 (by decide)

end WarpScheduler

/-! ## The arbiter inside `MiniSM` -/

namespace MiniSM

variable {u : Nat → WarpInstrs cfg}

/-- What a tick asks the scheduler. -/
def requests (sm : MiniSM cfg) (is : WarpInstrs cfg) : WarpScheduler.Requests cfg :=
  ⟨hasInstr is, sm.ready, sm.canIssueVec is⟩

theorem tick_scheduler (sm : MiniSM cfg) (is : WarpInstrs cfg) :
    (sm.tick is).2.scheduler = sm.scheduler.serve (sm.issuedWarp is) := by
  show (applyIssue _ is (sm.issuedWarp is)).scheduler = _
  cases sm.issuedWarp is <;> rfl

/-- The scheduler of a run goes through a run of the arbiter. -/
theorem scheduler_stateAt (t : Nat) :
    ((machine cfg).stateAt u t).scheduler =
      (WarpScheduler.arbiter cfg).stateAt
        (fun t => ((machine cfg).stateAt u t).requests (u t)) t := by
  induction t with
  | zero => rfl
  | succ t ih =>
    show (tick _ _).2.scheduler = WarpScheduler.serve _ (WarpScheduler.select _ _ _ _)
    rw [tick_scheduler, issuedWarp, ih]
    rfl

theorem issuedWarp_outAt (t : Nat) :
    ((machine cfg).outAt u t).issuedWarp =
      (WarpScheduler.arbiter cfg).outAt
        (fun t => ((machine cfg).stateAt u t).requests (u t)) t := by
  show WarpScheduler.select _ _ _ _ = WarpScheduler.select _ _ _ _
  rw [scheduler_stateAt]
  rfl

end MiniSM
end Cpp

/-! ## The arbiter of the RTL -/

namespace Rtl
namespace WarpScheduler

variable {p : Params}

/-- `warp_scheduler` clocked with `rst` low, from the state a reset leaves. -/
def arbiter (p : Params) :
    Mealy (WarpScheduler p) (Cpp.WarpScheduler.Requests { warps := p.warps }) (Option Nat) where
  init := reset
  next s r :=
    let issue := s.issue r.ready r.canIssue r.hasInstr
    s.posedge false issue.1 issue.2
  out s r :=
    let issue := s.issue r.ready r.canIssue r.hasInstr
    if issue.1 then some issue.2.toNat else none

theorem arbiter_step (hW : 1 ≤ p.warps) {s : WarpScheduler p}
    {c : Cpp.WarpScheduler { warps := p.warps }} (h : s.rrPtr.toNat = c.rrPtr)
    (r : Cpp.WarpScheduler.Requests { warps := p.warps }) :
    (arbiter p).out s r = (Cpp.WarpScheduler.arbiter { warps := p.warps }).out c r ∧
      ((arbiter p).next s r).rrPtr.toNat =
        ((Cpp.WarpScheduler.arbiter { warps := p.warps }).next c r).rrPtr := by
  have hselect := Cpp.WarpScheduler.select_eq_first hW c r
  have hissue := s.issue_eq r.ready r.canIssue r.hasInstr hW (q := r.eligible)
    fun _ _ => (Bool.and_comm _ _).trans (Bool.and_assoc _ _ _).symm
  rw [h, ← hselect] at hissue
  simp only [arbiter, Cpp.WarpScheduler.arbiter, hissue]
  cases hw : c.select r.hasInstr r.ready r.canIssue with
  | none => exact ⟨rfl, h⟩
  | some w =>
    have hlt := RoundRobin.first_lt (hselect.symm.trans hw)
    exact ⟨congrArg some (toNat_warpId hlt), s.toNat_rrPtr_posedge hlt⟩

/-- The register of the RTL holds the pointer of the simulator, and both choose
the same warp. -/
theorem arbiter_lockstep (hW : 1 ≤ p.warps)
    (u : Nat → Cpp.WarpScheduler.Requests { warps := p.warps }) (t : Nat) :
    ((arbiter p).stateAt u t).rrPtr.toNat =
        ((Cpp.WarpScheduler.arbiter { warps := p.warps }).stateAt u t).rrPtr ∧
      (arbiter p).outAt u t = (Cpp.WarpScheduler.arbiter { warps := p.warps }).outAt u t := by
  have hptr : ((arbiter p).stateAt u t).rrPtr.toNat =
      ((Cpp.WarpScheduler.arbiter { warps := p.warps }).stateAt u t).rrPtr := by
    induction t with
    | zero => exact BitVec.toNat_zero
    | succ t ih => exact (arbiter_step hW ih (u t)).2
  exact ⟨hptr, (arbiter_step hW hptr (u t)).1⟩

end WarpScheduler
end Rtl
end Simt
