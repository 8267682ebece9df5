import Simt.Pdom.CppPaths
import Simt.Pdom.RtlPaths

/-
The C++ controller against the RTL controller, cycle by cycle.

Both follow the same paths as long as no RUN cycle pushes and pops at once.  In
such a cycle the C++ pushes and pops what it just pushed, while the RTL decides
the pop from the stack before the edge.
-/

namespace Simt
namespace Pdom

open Cpp (Config PdomInput PdomOutput)
open Rtl (PdomIn PdomOut)

/-- The RTL ports driven with the C++ inputs. -/
def toRtl (lanes pcW : Nat) (inp : PdomInput) : PdomIn lanes pcW where
  branchFire := inp.branchFire
  branchCond := inp.branchCond.setWidth lanes
  reconvergePc := inp.reconvergePc.setWidth pcW
  pathDone := inp.pathDone

/-- Equal outputs, with the RTL mask in the low bits of the C++ one. -/
def SameOutput {lanes : Nat} (o : PdomOutput) (r : PdomOut lanes) : Prop :=
  o.activeMask = r.activeMask.setWidth 32 ∧ o.stackEmpty = r.stackEmpty ∧
    o.stackFull = r.stackFull ∧ o.diverged = r.diverged

instance {lanes : Nat} (o : PdomOutput) (r : PdomOut lanes) : Decidable (SameOutput o r) :=
  inferInstanceAs (Decidable (_ ∧ _))

/-- A `RUN` cycle that pushes and pops: a true divergence with room on the stack
in the cycle of `path_done`. -/
def PushesAndPops {cfg : Config} (c : Cpp.PdomCtrl cfg) (inp : PdomInput) : Prop :=
  c.state = .run ∧ inp.branchFire = true ∧ inp.pathDone = true ∧
    (c.thenMask inp ≠ 0 ∧ c.elseMask inp ≠ 0) ∧ c.sp < cfg.pdomDepth

instance {cfg : Config} (c : Cpp.PdomCtrl cfg) (inp : PdomInput) :
    Decidable (PushesAndPops c inp) := inferInstanceAs (Decidable (_ ∧ _))

section Lockstep

variable {cfg : Config} {pcW : Nat}

abbrev RtlCtrl (cfg : Config) (pcW : Nat) := Rtl.PdomCtrl cfg.lanes pcW cfg.pdomDepth

/-- Both controllers are on the same paths. -/
def Aligned (c : Cpp.PdomCtrl cfg) (r : RtlCtrl cfg pcW) : Prop :=
  (c.Rep ∧ c.paths.Sound) ∧ r.Rep ∧ c.paths.mapPc (BitVec.setWidth pcW) = r.paths

theorem event_toRtl (inp : PdomInput) :
    Rtl.PdomCtrl.event (toRtl cfg.lanes pcW inp) =
      (Cpp.PdomCtrl.event cfg inp).mapPc (BitVec.setWidth pcW) := by
  rw [Rtl.PdomCtrl.event, Event.mapPc, toRtl, Cpp.PdomCtrl.event,
    lanesOf_setWidth (Nat.le_refl _)]

theorem Aligned.deferred_length {c : Cpp.PdomCtrl cfg} {r : RtlCtrl cfg pcW}
    (h : Aligned c r) : r.paths.deferred.length = c.paths.deferred.length := by
  rw [← h.2.2]
  simp [Paths.mapPc]

theorem sameOutput_iff {c : Cpp.PdomCtrl cfg} {r : RtlCtrl cfg pcW} (h31 : cfg.lanes ≤ 31)
    (hc : c.Rep) (hr : r.Rep) :
    SameOutput c.output r.output ↔ c.paths.active = r.paths.active ∧
      (c.paths.deferred = [] ↔ r.paths.deferred = []) ∧
      (c.paths.deferred.length = cfg.pdomDepth ↔ r.paths.deferred.length = cfg.pdomDepth) := by
  have hmask : c.currMask = r.currMask.setWidth 32 ↔ c.paths.active = r.paths.active := by
    constructor
    · intro h
      show lanesOf _ c.currMask = lanesOf _ r.currMask
      rw [h, lanesOf_setWidth (by omega)]
    · intro h
      exact eq_setWidth_of_lanesOf_eq (Nat.le_refl _) hc.curr h
  have hce := Cpp.PdomCtrl.stackEmpty_iff hc
  have hcf := Cpp.PdomCtrl.stackFull_iff hc
  have hcd := Cpp.PdomCtrl.diverged_eq hc
  have hre : r.output.stackEmpty = true ↔ r.paths.deferred = [] :=
    Rtl.PdomCtrl.empty_iff_deferred hr
  have hrf : r.output.stackFull = true ↔ r.paths.deferred.length = cfg.pdomDepth :=
    Rtl.PdomCtrl.full_iff_deferred hr
  have hrd : r.output.diverged = !r.output.stackEmpty := rfl
  rw [SameOutput, hcd, hrd, Bool.eq_iff_iff (a := c.output.stackEmpty), hce, hre,
    Bool.eq_iff_iff (a := c.output.stackFull), hcf, hrf, Bool.not_inj_iff,
    Bool.eq_iff_iff (a := c.output.stackEmpty), hce, hre]
  constructor
  · intro hx
    obtain ⟨hm, he, hf, -⟩ := hx
    exact ⟨hmask.mp hm, he, hf⟩
  · intro hx
    obtain ⟨hm, he, hf⟩ := hx
    exact ⟨hmask.mpr hm, he, hf, he⟩

theorem Aligned.sameOutput {c : Cpp.PdomCtrl cfg} {r : RtlCtrl cfg pcW} (h31 : cfg.lanes ≤ 31)
    (h : Aligned c r) : SameOutput c.output r.output := by
  have hlen := h.deferred_length
  refine (sameOutput_iff h31 h.1.1 h.2.1).mpr ⟨?_, ?_, by rw [hlen]⟩
  · rw [← h.2.2]
    rfl
  · rw [← List.length_eq_zero_iff, ← List.length_eq_zero_iff, hlen]

theorem pushesAndPops_iff {c : Cpp.PdomCtrl cfg} (h31 : cfg.lanes ≤ 31) (hc : c.Rep)
    (inp : PdomInput) :
    PushesAndPops c inp ↔ c.paths.Collides cfg.pdomDepth (Cpp.PdomCtrl.event cfg inp) := by
  have hlen := Cpp.PdomCtrl.length_deferred hc
  have hroom : c.sp < cfg.pdomDepth ↔ c.paths.deferred.length < cfg.pdomDepth := by
    omega
  rw [PushesAndPops, Paths.Collides, Cpp.PdomCtrl.resuming_eq_none,
    Cpp.PdomCtrl.splits_iff h31 c inp, hroom]
  rfl

/-- A cycle that does not push and pop keeps the controllers aligned. -/
theorem Aligned.next {c : Cpp.PdomCtrl cfg} {r : RtlCtrl cfg pcW} (h0 : 1 ≤ cfg.lanes)
    (h31 : cfg.lanes ≤ 31) (h : Aligned c r) {inp : PdomInput} (hok : ¬ PushesAndPops c inp) :
    Aligned (c.tick inp).2 (r.posedge false (toRtl cfg.lanes pcW inp)) := by
  have : Nonempty (Fin cfg.lanes) := ⟨⟨0, h0⟩⟩
  obtain ⟨⟨hc, hsound⟩, hr, heq⟩ := h
  obtain ⟨hc', hcp⟩ := Cpp.PdomCtrl.tick_spec h31 hc inp
  obtain ⟨hr', hrp⟩ := Rtl.PdomCtrl.posedge_spec hr (toRtl cfg.lanes pcW inp)
  refine ⟨⟨hc', ?_⟩, hr', ?_⟩
  · rw [hcp]
    exact Paths.step_sound hsound _
  · have hno := mt (pushesAndPops_iff h31 hc inp).mpr hok
    rw [hrp, event_toRtl, ← heq, Paths.edgeStep_eq_step (mt (Paths.mapPc_collides _ _).mp hno),
      Paths.mapPc_step, hcp]

/-- A cycle that pushes and pops shows in the outputs of one of the next two. -/
theorem Aligned.differ {c : Cpp.PdomCtrl cfg} {r : RtlCtrl cfg pcW} (h31 : cfg.lanes ≤ 31)
    (h : Aligned c r) {inp : PdomInput} (hbad : PushesAndPops c inp) (inp' : PdomInput) :
    ¬ (SameOutput (c.tick inp).2.output (r.posedge false (toRtl cfg.lanes pcW inp)).output ∧
      SameOutput ((c.tick inp).2.tick inp').2.output
        ((r.posedge false (toRtl cfg.lanes pcW inp)).posedge false
          (toRtl cfg.lanes pcW inp')).output) := by
  obtain ⟨⟨hc, hsound⟩, hr, heq⟩ := h
  have hcol := (pushesAndPops_iff h31 hc inp).mp hbad
  obtain ⟨hc', hcp⟩ := Cpp.PdomCtrl.tick_spec h31 hc inp
  obtain ⟨hr', hrp⟩ := Rtl.PdomCtrl.posedge_spec hr (toRtl cfg.lanes pcW inp)
  have hcol' := (Paths.mapPc_collides (BitVec.setWidth pcW) cfg.pdomDepth).mpr hcol
  rw [Paths.step_of_collides hcol] at hcp
  rw [event_toRtl, ← heq] at hrp
  intro hx
  obtain ⟨hone, htwo⟩ := hx
  cases hq : c.paths.deferred with
  | nil =>
    -- The RTL leaves the pushed entry on the stack, the C++ takes it back off.
    rw [Paths.edgeStep_of_collides_nil hcol' (by simp [Paths.mapPc, hq])] at hrp
    obtain ⟨-, hempty, -⟩ := (sameOutput_iff h31 hc' hr').mp hone
    rw [hcp, hrp, hq] at hempty
    exact absurd (hempty.mp rfl) (List.cons_ne_nil _ _)
  | cons e rest =>
    -- One cycle later the C++ runs the pushed mask and the RTL the old top.
    have hq' : (c.paths.mapPc (BitVec.setWidth pcW)).deferred =
        Prod.map id (BitVec.setWidth pcW) e :: rest.map (Prod.map id (BitVec.setWidth pcW)) := by
      simp [Paths.mapPc, hq]
    rw [Paths.edgeStep_of_collides_cons hcol' hq'] at hrp
    obtain ⟨hc'', hcp'⟩ := Cpp.PdomCtrl.tick_spec h31 hc' inp'
    obtain ⟨hr'', hrp'⟩ := Rtl.PdomCtrl.posedge_spec hr' (toRtl cfg.lanes pcW inp')
    obtain ⟨hact, -⟩ := (sameOutput_iff h31 hc'' hr'').mp htwo
    rw [Paths.step_resuming (congrArg Paths.resuming hcp)] at hcp'
    rw [Paths.edgeStep_resuming (congrArg Paths.resuming hrp)] at hrp'
    rw [hcp', hrp'] at hact
    have hm : c.paths.masks = c.paths.active :: e.1 :: rest.map Prod.fst := by
      simp [Paths.masks, hcol.1, hq]
    rw [Paths.Sound, hm] at hsound
    have hdisj := (apart_cons.mp hsound).2.1 e.1 List.mem_cons_self
    have hself : Disjoint (c.paths.active \ (Cpp.PdomCtrl.event cfg inp).cond) e.1 :=
      hdisj.mono_left sdiff_le
    have heqm : c.paths.active \ (Cpp.PdomCtrl.event cfg inp).cond = e.1 := hact
    rw [← heqm, disjoint_self] at hself
    exact hcol.2.2.2.1.2 hself

theorem aligned_init (h0 : 1 ≤ cfg.lanes) (h31 : cfg.lanes ≤ 31) :
    Aligned (Cpp.PdomCtrl.fresh cfg) (Rtl.PdomCtrl.reset : RtlCtrl cfg pcW) := by
  have : Nonempty (Fin cfg.lanes) := ⟨⟨0, h0⟩⟩
  refine ⟨⟨Cpp.PdomCtrl.fresh_rep h31, ?_⟩, Rtl.PdomCtrl.reset_rep, ?_⟩
  · rw [Cpp.PdomCtrl.fresh_paths h31]
    exact Paths.start_sound
  · rw [Cpp.PdomCtrl.fresh_paths h31, Rtl.PdomCtrl.reset_paths, Paths.mapPc_start]

/-! ## Whole runs -/

theorem cpp_outAt (u : Nat → PdomInput) (t : Nat) :
    (Cpp.PdomCtrl.machine cfg).outAt u t = ((Cpp.PdomCtrl.machine cfg).stateAt u t).output :=
  Cpp.PdomCtrl.tick_fst _ _

/-- The RTL machine on the ports of the C++ run. -/
abbrev rtlMachine (cfg : Config) (pcW : Nat) := Rtl.PdomCtrl.machine cfg.lanes pcW cfg.pdomDepth

theorem aligned_stateAt (h0 : 1 ≤ cfg.lanes) (h31 : cfg.lanes ≤ 31) {u : Nat → PdomInput} {t : Nat}
    (hok : ∀ s, s < t → ¬ PushesAndPops ((Cpp.PdomCtrl.machine cfg).stateAt u s) (u s)) :
    Aligned ((Cpp.PdomCtrl.machine cfg).stateAt u t)
      ((rtlMachine cfg pcW).stateAt (toRtl cfg.lanes pcW ∘ u) t) := by
  have hsim : Mealy.Simulates (Cpp.PdomCtrl.machine cfg) (rtlMachine cfg pcW)
      (fun c inp r => r = toRtl cfg.lanes pcW inp ∧ ¬ PushesAndPops c inp) Aligned := by
    refine ⟨aligned_init h0 h31, fun c r inp k hal hq => ?_⟩
    rw [hq.1]
    exact hal.next h0 h31 hq.2
  exact hsim.stateAt fun s hs => ⟨rfl, hok s hs⟩

/-- The two controllers have equal outputs in every cycle of exactly the runs
without a cycle that pushes and pops, and up to the first such cycle in any
run. -/
theorem cycle_accurate_iff (h0 : 1 ≤ cfg.lanes) (h31 : cfg.lanes ≤ 31) (pcW : Nat)
    (u : Nat → PdomInput) :
    ((∀ t, SameOutput ((Cpp.PdomCtrl.machine cfg).outAt u t)
        ((rtlMachine cfg pcW).outAt (toRtl cfg.lanes pcW ∘ u) t)) ↔
      ∀ t, ¬ PushesAndPops ((Cpp.PdomCtrl.machine cfg).stateAt u t) (u t)) ∧
    ∀ t, (∀ s, s < t → ¬ PushesAndPops ((Cpp.PdomCtrl.machine cfg).stateAt u s) (u s)) →
      SameOutput ((Cpp.PdomCtrl.machine cfg).outAt u t)
        ((rtlMachine cfg pcW).outAt (toRtl cfg.lanes pcW ∘ u) t) := by
  have hsame : ∀ t, (∀ s, s < t → ¬ PushesAndPops ((Cpp.PdomCtrl.machine cfg).stateAt u s) (u s)) →
      SameOutput ((Cpp.PdomCtrl.machine cfg).outAt u t)
        ((rtlMachine cfg pcW).outAt (toRtl cfg.lanes pcW ∘ u) t) := by
    intro t hok
    rw [cpp_outAt]
    exact (aligned_stateAt h0 h31 hok).sameOutput h31
  refine ⟨⟨?_, fun hok t => hsame t fun s _ => hok s⟩, hsame⟩
  intro hall t
  -- At the first cycle that pushes and pops the states are still aligned.
  induction t using Nat.strongRecOn with
  | ind t ih =>
    intro hbad
    have hal := @aligned_stateAt cfg pcW h0 h31 u t ih
    have hone := hall (t + 1)
    have htwo := hall (t + 2)
    rw [cpp_outAt] at hone htwo
    exact hal.differ h31 hbad (u (t + 1)) ⟨hone, htwo⟩

/-- A branch in cycle 0 and the end of its THEN path in cycle 4. -/
theorem cycle_accurate_split :
    SameOutput ((Cpp.PdomCtrl.machine {}).outAt
        (fun t => { branchFire := t == 0, branchCond := 0xCA, pathDone := t == 4 }) 6)
      ((rtlMachine {} 16).outAt (toRtl 8 16 ∘
        fun t => { branchFire := t == 0, branchCond := 0xCA, pathDone := t == 4 }) 6) :=
  (@cycle_accurate_iff {} (by decide) (by decide) 16 _).2 6 fun s _ h => by
    have h0 : s = 0 := by simpa using h.2.1
    have h4 : s = 4 := by simpa using h.2.2.1
    omega

end Lockstep

/-- Two lanes diverge in the cycle their path ends.  One cycle later the RTL
stack is not empty and the C++ stack is. -/
theorem push_and_pop_differs :
    ¬ SameOutput ((Cpp.PdomCtrl.machine { lanes := 2, pdomDepth := 1 }).outAt
        (fun _ => { branchFire := true, branchCond := 1, pathDone := true }) 1)
      ((rtlMachine { lanes := 2, pdomDepth := 1 } 16).outAt
        (toRtl 2 16 ∘ fun _ => { branchFire := true, branchCond := 1, pathDone := true }) 1) := by
  decide

end Pdom
end Simt
