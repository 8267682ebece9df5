import Simt.Sm.EdgeSpec
import Simt.Sm.TickSpec

/-
The C++ SM against the RTL SM, cycle by cycle.

`Tied` relates the states: the same busy bits and pointer, the pipeline read in
the opposite direction with the metadata under a low valid bit ignored, and the
low halves of the counters.  Operands, branches and path ends reach none of
these registers.
-/

namespace Simt
namespace Sm

open Cpp (Config WarpInstrs WbResult TickOutput PerfCounters InRange MiniSM)
open Rtl (Params SmIn SmOut MiniSmTop)

/-- The RTL parameters with the sizes of a configuration. -/
abbrev params (cfg : Config) (dataWidth pcW : Nat) : Params where
  lanes := cfg.lanes
  dataWidth := dataWidth
  warps := cfg.warps
  regs := cfg.regs
  execLatency := cfg.execLatency
  pcW := pcW
  pdomDepth := cfg.pdomDepth

variable {cfg : Config} {dataWidth pcW : Nat}

/-- Both sides are given the same instructions.  The other ports are free. -/
def SameInstrs (is : WarpInstrs cfg) (inp : SmIn (params cfg dataWidth pcW)) : Prop :=
  ∀ w, w < cfg.warps →
    match is.getD w none with
    | some m =>
      inp.warpHasInstr.getD w false = true ∧
        (inp.warpInstr.getD w default).src0.toNat = m.src0 ∧
        (inp.warpInstr.getD w default).src1.toNat = m.src1 ∧
        (inp.warpInstr.getD w default).dst.toNat = m.dst ∧
        (inp.warpInstr.getD w default).hasDst = m.hasDst
    | none => inp.warpHasInstr.getD w false = false

/-- The RTL counters are the low halves of the C++ ones. -/
structure SameCounters (c : PerfCounters) (r : Rtl.Counters) : Prop where
  cycles : r.cycleCount = c.cycles.setWidth 32
  instructions : r.issueCount = c.instructions.setWidth 32
  stallData : r.stallDataHazard = c.stallData.setWidth 32
  stallStructural : r.stallStructural = c.stallStructural.setWidth 32
  stallMemory : r.stallMemoryLatency = c.stallMemory.setWidth 32
  stallNoWarp : r.stallNoReadyWarp = c.stallNoWarp.setWidth 32
  cyclesIssuing : r.cyclesWithIssue = c.cyclesIssuing.setWidth 32
  wbCount : r.wbCount = c.wbCount.setWidth 32

/-- The same issue decision, writeback and counters in a cycle. -/
structure SameCycle (o : TickOutput) (c : PerfCounters)
    (r : SmOut (params cfg dataWidth pcW)) : Prop where
  issue : o.issuedWarp = if r.issueValid then some r.issueWarpId.toNat else none
  writeback : o.writeback.map WbResult.warpId = if r.wbValid then some r.wbWarpId.toNat else none
  counters : SameCounters c r.counters

/-- What stage `i` of the RTL pipeline stands for. -/
def entry (e : Rtl.ExecPipe (params cfg dataWidth pcW)) (i : Nat) : Option WbResult :=
  if e.validPipe.getD i false then
    some ⟨(e.warpIdPipe.getD i 0).toNat, (e.dstPipe.getD i 0).toNat, e.hasDstPipe.getD i false⟩
  else none

structure Tied (sm : MiniSM cfg) (s : MiniSmTop (params cfg dataWidth pcW)) : Prop where
  valid : sm.Valid
  ready : ∀ w, w < cfg.warps → s.warpReady.getD w false = true
  busy : ∀ w r, w < cfg.warps → r < cfg.regs → s.uScoreboard.read w r = sm.isBusy w r
  rrPtr : s.uWarpScheduler.rrPtr.toNat = sm.scheduler.rrPtr
  stages : ∀ i, i < cfg.execLatency → sm.stage (cfg.execLatency - 1 - i) = entry s.uExecPipe i
  counters : SameCounters sm.counters s.counters

theorem tied_init (hW : 2 ≤ cfg.warps) :
    Tied (MiniSM.fresh cfg) (MiniSmTop.reset : MiniSmTop (params cfg dataWidth pcW)) := by
  refine ⟨MiniSM.fresh_valid (Nat.le_of_succ_le hW), ?_, ?_, rfl, ?_,
    ⟨rfl, rfl, rfl, rfl, rfl, rfl, rfl, rfl⟩⟩
  · exact fun w hw => Rtl.WarpTable.warpReady_reset hw
  · intro w r _ _
    rw [MiniSM.isBusy_fresh]
    exact Rtl.Scoreboard.read_reset w r
  · intro i _
    rw [MiniSM.stage_fresh]
    simp [entry, MiniSmTop.reset, Rtl.ExecPipe.reset]

section Step

variable {sm : MiniSM cfg} {s : MiniSmTop (params cfg dataWidth pcW)} {is : WarpInstrs cfg}
  {inp : SmIn (params cfg dataWidth pcW)}

/-! ## The issue decision -/

theorem warpCanIssue_getD {w : Nat} (hw : w < cfg.warps) :
    (s.warpCanIssue inp).getD w false =
      !(s.uScoreboard.read w (inp.warpInstr.getD w default).src0.toNat ||
        s.uScoreboard.read w (inp.warpInstr.getD w default).src1.toNat) := by
  have h0 : (inp.warpInstr.map Rtl.InstrMeta.src0).getD w 0 =
      (inp.warpInstr.getD w default).src0 := getD_map Rtl.InstrMeta.src0 inp.warpInstr w default
  have h1 : (inp.warpInstr.map Rtl.InstrMeta.src1).getD w 0 =
      (inp.warpInstr.getD w default).src1 := getD_map Rtl.InstrMeta.src1 inp.warpInstr w default
  rw [MiniSmTop.warpCanIssue, Rtl.Scoreboard.canIssue, getD_ofFn _ hw, h0, h1]

variable (ht : Tied sm s) (hi : InRange is) (hin : SameInstrs is inp)

include ht hi hin

theorem warp_cases {w : Nat} (hw : w < cfg.warps) :
    (s.warpReady.getD w false && (s.warpCanIssue inp).getD w false &&
        inp.warpHasInstr.getD w false) = sm.eligible is w ∧
      (inp.warpHasInstr.getD w false && s.warpReady.getD w false &&
        !(s.warpCanIssue inp).getD w false) = sm.held is w := by
  have hsame := hin w hw
  rw [ht.ready w hw, warpCanIssue_getD hw, MiniSM.eligible, MiniSM.held]
  cases hm : is.getD w none with
  | none =>
    rw [hm] at hsame
    simp [hsame]
  | some m =>
    rw [hm] at hsame
    obtain ⟨hhas, h0, h1, -, -⟩ := hsame
    obtain ⟨hr0, hr1, -⟩ := hi w m hm
    rw [hhas, h0, h1, ht.busy w _ hw hr0, ht.busy w _ hw hr1]
    simp

theorem issue_eq :
    s.uWarpScheduler.issue s.warpReady (s.warpCanIssue inp) inp.warpHasInstr =
      match sm.issuedWarp is with
      | some w => (true, BitVec.ofNat _ w)
      | none => (false, 0) := by
  have hpos : 0 < cfg.warps := Nat.zero_lt_of_lt ht.valid.rrPtr
  rw [MiniSM.issuedWarp_eq ht.valid, ← ht.rrPtr]
  exact Rtl.WarpScheduler.issue_eq _ _ _ _ hpos fun w hw => (warp_cases ht hi hin hw).1

theorem issueValid_eq : s.issueValid inp = (sm.issuedWarp is).isSome := by
  rw [MiniSmTop.issueValid, issue_eq ht hi hin]
  cases sm.issuedWarp is <;> rfl

theorem issueWarpId_eq {w : Nat} (hw : sm.issuedWarp is = some w) :
    s.issueWarpId inp = BitVec.ofNat _ w := by
  rw [MiniSmTop.issueWarpId, issue_eq ht hi hin, hw]

theorem toNat_issueWarpId {w : Nat} (hw : sm.issuedWarp is = some w) :
    (s.issueWarpId inp).toNat = w := by
  rw [issueWarpId_eq ht hi hin hw]
  exact Rtl.toNat_warpId (p := params cfg dataWidth pcW) (MiniSM.issuedWarp_lt ht.valid hw)

/-- The RTL loads its pipeline with the entry the C++ pushes. -/
theorem issuedEntry_eq :
    sm.issuedEntry is =
      if s.issueValid inp then
        some ⟨(s.issueWarpId inp).toNat, (s.issuedInstr inp).dst.toNat, (s.issuedInstr inp).hasDst⟩
      else none := by
  rw [issueValid_eq ht hi hin]
  cases hw : sm.issuedWarp is with
  | none =>
    rw [MiniSM.issuedEntry, hw]
    rfl
  | some w =>
    have hlt := MiniSM.issuedWarp_lt ht.valid hw
    have hm := (MiniSM.issuedInstr_spec ht.valid hw).1
    have hsame := hin w hlt
    rw [hm] at hsame
    obtain ⟨-, -, -, hdst, hhas⟩ := hsame
    rw [MiniSM.issuedEntry, hw, Option.isSome_some, if_pos rfl, MiniSmTop.issuedInstr,
      toNat_issueWarpId ht hi hin hw, hdst, hhas]
    rfl

omit hi hin in
theorem writeback_eq (hL : 1 ≤ cfg.execLatency) :
    sm.stage 0 =
      if s.uExecPipe.wbValid then
        some ⟨s.uExecPipe.wbWarpId.toNat, s.uExecPipe.wbDst.toNat, s.uExecPipe.wbHasDst⟩
      else none := by
  have h := ht.stages (cfg.execLatency - 1) (by omega)
  rw [Nat.sub_self] at h
  exact h

theorem scoreboardBlocked_eq :
    s.scoreboardBlocked inp = (List.range cfg.warps).any (sm.held is) := by
  rw [MiniSmTop.scoreboardBlocked, Bool.eq_iff_iff, List.any_eq_true, List.any_eq_true]
  constructor
  · intro hx
    obtain ⟨w, hmem, h⟩ := hx
    rw [(warp_cases ht hi hin (List.mem_range.mp hmem)).2] at h
    exact ⟨w, hmem, h⟩
  · intro hx
    obtain ⟨w, hmem, h⟩ := hx
    rw [← (warp_cases ht hi hin (List.mem_range.mp hmem)).2] at h
    exact ⟨w, hmem, h⟩

/-! ## The edge -/

theorem busy_next (hL : 1 ≤ cfg.execLatency) {w r : Nat} (hw : w < cfg.warps)
    (hr : r < cfg.regs) :
    (s.posedge false inp).uScoreboard.read w r = (sm.tick is).2.isBusy w r := by
  have hentry : ∀ (b d : Bool) (w' r' : Nat),
      (if b then some (⟨w', r', d⟩ : WbResult) else none) = some ⟨w, r, true⟩ ↔
        (b && d) = true ∧ w' = w ∧ r' = r := by
    intro b d w' r'
    cases b <;> cases d <;> simp
  rw [Bool.eq_iff_iff, MiniSM.tick_isBusy ht.valid hi hw hr, issuedEntry_eq ht hi hin,
    writeback_eq ht hL, ne_eq, hentry, hentry, ← ht.busy w r hw hr]
  exact Rtl.Scoreboard.read_posedge _ _ _ _ _ _ _ _ _ hw hr

theorem rrPtr_next :
    (s.posedge false inp).uWarpScheduler.rrPtr.toNat = (sm.tick is).2.scheduler.rrPtr := by
  rw [MiniSM.tick_rrPtr]
  show (Rtl.WarpScheduler.posedge _ false (s.issueValid inp) (s.issueWarpId inp)).rrPtr.toNat = _
  rw [issueValid_eq ht hi hin]
  cases hw : sm.issuedWarp is with
  | none => exact ht.rrPtr
  | some w =>
    rw [issueWarpId_eq ht hi hin hw]
    exact Rtl.WarpScheduler.toNat_rrPtr_posedge _ (MiniSM.issuedWarp_lt ht.valid hw)

theorem stages_next {i : Nat} (hlt : i < cfg.execLatency) :
    (sm.tick is).2.stage (cfg.execLatency - 1 - i) =
      entry (s.posedge false inp).uExecPipe i := by
  rw [MiniSM.tick_stage (by omega)]
  show _ = entry (Rtl.ExecPipe.posedge _ false _ _ _ _) i
  rw [entry, Rtl.ExecPipe.posedge, if_neg Bool.false_ne_true]
  simp only [Rtl.getD_shiftIn _ _ _ hlt]
  by_cases hzero : i = 0
  · rw [if_pos (by omega), issuedEntry_eq ht hi hin]
    simp only [if_pos hzero]
  · rw [if_neg (by omega),
      show cfg.execLatency - 1 - i + 1 = cfg.execLatency - 1 - (i - 1) by omega,
      ht.stages (i - 1) (by omega)]
    simp only [if_neg hzero]
    rfl

theorem counters_next (hL : 1 ≤ cfg.execLatency) :
    SameCounters (sm.tick is).2.counters (s.posedge false inp).counters := by
  have hwb : s.uExecPipe.wbValid = (sm.stage 0).isSome := by
    rw [writeback_eq ht hL]
    cases s.uExecPipe.wbValid <;> rfl
  have hnone : (!s.issueValid inp) = (sm.issuedWarp is).isNone := by
    rw [issueValid_eq ht hi hin]
    cases sm.issuedWarp is <;> rfl
  have hlow : (32 : Nat) ≤ 64 := by decide
  have hc := ht.counters
  show SameCounters _ (s.countersNext inp)
  rw [MiniSM.tick_counters ht.valid, MiniSmTop.countersNext_eq, hwb, hnone,
    issueValid_eq ht hi hin, scoreboardBlocked_eq ht hi hin]
  constructor
  case cycles => exact (congrArg (tally true) hc.cycles).trans (setWidth_tally hlow true _).symm
  case instructions =>
    exact (congrArg (tally _) hc.instructions).trans (setWidth_tally hlow _ _).symm
  case stallData => exact (congrArg (tally _) hc.stallData).trans (setWidth_tally hlow _ _).symm
  case stallStructural => exact hc.stallStructural
  case stallMemory => exact hc.stallMemory
  case stallNoWarp => exact (congrArg (tally _) hc.stallNoWarp).trans (setWidth_tally hlow _ _).symm
  case cyclesIssuing =>
    exact (congrArg (tally _) hc.cyclesIssuing).trans (setWidth_tally hlow _ _).symm
  case wbCount => exact (congrArg (tally _) hc.wbCount).trans (setWidth_tally hlow _ _).symm

theorem Tied.next (hL : 1 ≤ cfg.execLatency) :
    Tied (sm.tick is).2 (s.posedge false inp) where
  valid := MiniSM.tick_valid ht.valid hi
  ready := by
    intro w hw
    show (Rtl.WarpTable.posedge _ false false 0 false 0).warpReady.getD w false = true
    rw [Rtl.WarpTable.posedge_no_stall]
    exact ht.ready w hw
  busy := fun _ _ hw hr => busy_next ht hi hin hL hw hr
  rrPtr := rrPtr_next ht hi hin
  stages := fun _ hlt => stages_next ht hi hin hlt
  counters := counters_next ht hi hin hL

theorem Tied.sameCycle (hL : 1 ≤ cfg.execLatency) :
    SameCycle (sm.tick is).1 sm.counters (s.output inp) where
  issue := by
    show sm.issuedWarp is = if s.issueValid inp then some (s.issueWarpId inp).toNat else none
    rw [issueValid_eq ht hi hin]
    cases hw : sm.issuedWarp is with
    | none => rfl
    | some w => rw [toNat_issueWarpId ht hi hin hw, Option.isSome_some, if_pos rfl]
  writeback := by
    show (sm.stage 0).map WbResult.warpId = _
    rw [writeback_eq ht hL, apply_ite (Option.map WbResult.warpId)]
    rfl
  counters := ht.counters

end Step

/-- The C++ SM and the RTL SM issue and write back the same warps in every cycle
and count the same, whatever drives the other RTL ports. -/
theorem cpp_refines_rtl (hW : 2 ≤ cfg.warps) (hL : 1 ≤ cfg.execLatency) {u : Nat → WarpInstrs cfg}
    {v : Nat → SmIn (params cfg dataWidth pcW)} (hu : ∀ t, InRange (u t))
    (huv : ∀ t, SameInstrs (u t) (v t)) (t : Nat) :
    SameCycle ((MiniSM.machine cfg).outAt u t) ((MiniSM.machine cfg).stateAt u t).counters
      ((MiniSmTop.machine (params cfg dataWidth pcW)).outAt v t) := by
  have hsim : Mealy.Simulates (MiniSM.machine cfg) (MiniSmTop.machine (params cfg dataWidth pcW))
      (fun _ is inp => InRange is ∧ SameInstrs is inp) Tied :=
    ⟨tied_init hW, fun _ _ _ _ ht hq => ht.next hq.1 hq.2 hL⟩
  have htied := hsim.stateAt (t := t) fun s _ => ⟨hu s, huv s⟩
  exact htied.sameCycle (hu t) (huv t) hL

/-- The workload of `main` at the ports, with every warp on a branch and at the
end of its path. -/
def mainPorts : SmIn (params {} 32 16) where
  warpHasInstr := Vector.replicate _ true
  warpInstr := Vector.replicate _ ⟨0, 1, 0, true, 0⟩
  warpA := Vector.replicate _ (Vector.replicate _ 5)
  warpB := Vector.replicate _ (Vector.replicate _ 7)
  warpIsBranch := Vector.replicate _ true
  warpBranchCond := Vector.replicate _ 0xCA
  warpReconvergePc := Vector.replicate _ 0
  warpPathDone := Vector.replicate _ true

theorem cpp_refines_rtl_main :
    SameCycle ((MiniSM.machine {}).outAt (fun _ => Cpp.rawHeavy {}) 9)
      ((MiniSM.machine {}).stateAt (fun _ => Cpp.rawHeavy {}) 9).counters
      ((MiniSmTop.machine (params {} 32 16)).outAt (fun _ => mainPorts) 9) := by
  refine @cpp_refines_rtl {} 32 16 (by decide) (by decide) _ _
    (fun _ => Cpp.rawHeavy_inRange (by decide)) (fun _ w hw => ?_) 9
  rw [Cpp.rawHeavy_getD hw]
  have hinstr : mainPorts.warpInstr.getD w default = ⟨0, 1, 0, true, 0⟩ := by
    rw [mainPorts, getD_of_lt _ hw, Vector.getElem_replicate]
  have hhas : mainPorts.warpHasInstr.getD w false = true := by
    rw [mainPorts, getD_of_lt _ hw, Vector.getElem_replicate]
  rw [hinstr]
  exact ⟨hhas, by decide, by decide, by decide, rfl⟩

end Sm
end Simt
