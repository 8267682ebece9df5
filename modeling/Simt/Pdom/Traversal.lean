import Simt.Pdom.CppPaths
import Simt.Pdom.DivTree
import Simt.Pdom.RtlPaths

/-
Both controllers run a divergence tree depth first, THEN side first, and every
lane exactly once.
-/

namespace Simt
namespace Pdom

open Cpp (Config PdomInput PdomOutput)
open Rtl (PdomIn PdomOut)

variable {w pcW n : Nat}

/-- What a controller shows at the ends of the paths of a tree, as the list of
its active masks and that of its `stack_empty` flags: the masks of the tree in
order, each lane in one of them, and deferred paths at every end but the last. -/
structure RunsTree (full : BitVec w) (t : DivTree w pcW) (masks : List (BitVec w))
    (stackEmpty : List Bool) : Prop where
  inOrder : masks = t.pathMasks full
  partitions : DivTree.Partitions masks full
  waiting : stackEmpty = List.replicate (masks.length - 1) false ++ [true]

theorem below_pathMasks {full : BitVec w} (hfull : Below n full) (t : DivTree w pcW) :
    ∀ x ∈ t.pathMasks full, Below n x := by
  intro x hx
  rw [← DivTree.and_of_mem hx, (DivTree.pathMasks_partitions full t).covers]
  exact hfull.and_right x

theorem runsTree_of_visits {ο : Type*} {mask : ο → BitVec w} {empty : ο → Bool} {full : BitVec w}
    {t : DivTree w pcW} {outs : List ο} (hfull : Below n full)
    (hmask : ∀ o ∈ outs, Below n (mask o))
    (h : Visits (outs.map fun o => (lanesOf n (mask o), empty o)) (t.pathMasks full) true) :
    RunsTree full t (outs.map mask) (outs.map empty) := by
  have hmasks : outs.map mask = t.pathMasks full := by
    apply (map_lanesOf_inj (n := n) (List.forall_mem_map.mpr hmask) (below_pathMasks hfull t)).mp
    rw [← h.masks, List.map_map, List.map_map]
    rfl
  refine ⟨hmasks, ?_, ?_⟩
  · rw [hmasks]
    exact DivTree.pathMasks_partitions full t
  · rw [hmasks, ← h.empty, List.map_map]
    rfl

/-- A whole tree from the start of a warp. -/
theorem Drives.visits_start (cap : Nat) (h0 : 1 ≤ n) (hw : n ≤ w) (hcap : n ≤ cap + 1)
    {full : BitVec w} (hb : Below n full) (hfull : lanesOf n full = ⊤) {t : DivTree w pcW}
    {es : List (Signals w pcW)} (h : Drives full t es) :
    (setsMachine cap n pcW).after Paths.start (es.map (Signals.onLanes n)) = Paths.start ∧
      Visits ((setsMachine cap n pcW).outsWhen Event.done Paths.start
        (es.map (Signals.onLanes n))) (t.pathMasks full) true := by
  have : Nonempty (Fin n) := ⟨⟨0, h0⟩⟩
  have hne : full ≠ 0 := by
    intro hzero
    have hbot := (lanesOf_eq_bot hb).mpr hzero
    rw [hfull] at hbot
    exact top_ne_bot hbot
  have hapart :
      Apart (lanesOf n full :: ([] : List (Finset (Fin n) × BitVec pcW)).map Prod.fst) := by
    rw [hfull]
    exact apart_singleton.mpr top_ne_bot
  obtain ⟨⟨x, hx⟩, hv⟩ := h.visits cap hw hcap hne hb hapart
  rw [hfull] at hx hv
  exact ⟨hx, hv⟩

/-- A controller whose states read as paths, step by step on the inputs in `G`,
runs the trees it is driven by and comes back to the start of the warp. -/
theorem runsTree_of_reads {σ ι ο : Type*} {M : Mealy σ ι ο} {I : σ → Prop} {G : ι → Prop}
    (cap : Nat) (abs : σ → Paths (Finset (Fin n)) (BitVec pcW)) (signals : ι → Signals w pcW)
    (mask : ο → BitVec w) (empty : ο → Bool) (hkeep : ∀ s i, I s → G i → I (M.next s i))
    (hnext : ∀ s i, I s → G i →
      (setsMachine cap n pcW).next (abs s) ((signals i).onLanes n) = abs (M.next s i))
    (hmask : ∀ s i, I s → Below n (mask (M.out s i)))
    (hactive : ∀ s i, I s → (abs s).active = lanesOf n (mask (M.out s i)))
    (hempty : ∀ s i, I s → ((abs s).deferred = [] ↔ empty (M.out s i) = true))
    (h0 : 1 ≤ n) (hw : n ≤ w) (hcap : n ≤ cap + 1) {full : BitVec w} (hb : Below n full)
    (hfull : lanesOf n full = ⊤) {s : σ} (hs : I s) (hstart : abs s = Paths.start)
    {t : DivTree w pcW} {is : List ι} (h : Drives full t (is.map signals)) (hG : ∀ i ∈ is, G i) :
    let outs := M.outsWhen (fun i => (signals i).done) s is
    RunsTree full t (outs.map mask) (outs.map empty) ∧ I (M.after s is) ∧
      abs (M.after s is) = Paths.start := by
  obtain ⟨hend, hvisits⟩ := h.visits_start cap h0 hw hcap hb hfull
  obtain ⟨hafter, hI, houts⟩ := Mealy.after_outsWhen_map (M := M) (N := setsMachine cap n pcW)
    (fun i => (signals i).onLanes n) abs (fun o => (lanesOf n (mask o), empty o)) hkeep hnext
    (fun s i hi => Prod.ext (hactive s i hi)
      (Bool.eq_iff_iff.mpr (List.isEmpty_iff.trans (hempty s i hi))))
    Event.done is hG hs
  have hmap : is.map (fun i => (signals i).onLanes n) =
      (is.map signals).map (Signals.onLanes n) := by
    rw [List.map_map]
    rfl
  rw [hstart, hmap] at hafter houts
  rw [houts] at hvisits
  refine ⟨runsTree_of_visits hb ?_ hvisits, hI, hafter.symm.trans hend⟩
  exact Mealy.forall_outsWhen hkeep hmask _ is hG hs

/-! ## `PdomCtrl` -/

section CppSide

variable {cfg : Config}

def cppSignals (inp : PdomInput) : Signals 32 32 :=
  ⟨inp.branchFire, inp.branchCond, inp.reconvergePc, inp.pathDone⟩

theorem reset_rep (h31 : cfg.lanes ≤ 31) (c : Cpp.PdomCtrl cfg) : c.reset.Rep := by
  refine ⟨Int.le_refl 0, Int.natCast_nonneg _, Cpp.PdomCtrl.below_laneMask h31, ?_, ?_⟩
  · simp [Cpp.PdomCtrl.stacked, Cpp.PdomCtrl.reset]
  · simp [Cpp.PdomCtrl.reset]

theorem reset_paths (h31 : cfg.lanes ≤ 31) (c : Cpp.PdomCtrl cfg) :
    c.reset.paths = Paths.start := by
  rw [Paths.ext_iff']
  refine ⟨Cpp.PdomCtrl.lanesOf_laneMask h31, ?_, rfl⟩
  simp [Cpp.PdomCtrl.paths, Cpp.PdomCtrl.stacked, Cpp.PdomCtrl.reset, Paths.start]

theorem cpp_runsTree (h0 : 1 ≤ cfg.lanes) (h31 : cfg.lanes ≤ 31)
    (hdepth : cfg.lanes - 1 ≤ cfg.pdomDepth) (c : Cpp.PdomCtrl cfg) {t : DivTree 32 32}
    {is : List PdomInput} (h : Drives (Cpp.laneMask cfg) t (is.map cppSignals)) :
    let outs := (Cpp.PdomCtrl.machine cfg).outsWhen PdomInput.pathDone c.reset is
    let last := (Cpp.PdomCtrl.machine cfg).after c.reset is
    RunsTree (Cpp.laneMask cfg) t (outs.map PdomOutput.activeMask)
        (outs.map PdomOutput.stackEmpty) ∧
      last.state = .run ∧ last.currMask = Cpp.laneMask cfg ∧ last.sp = 0 := by
  have hbelow := Cpp.PdomCtrl.below_laneMask h31
  have hlanes := Cpp.PdomCtrl.lanesOf_laneMask h31
  have hout : ∀ (s : Cpp.PdomCtrl cfg) i, (Cpp.PdomCtrl.machine cfg).out s i = s.output :=
    Cpp.PdomCtrl.tick_fst
  obtain ⟨hruns, hrep, hlast⟩ := runsTree_of_reads (M := Cpp.PdomCtrl.machine cfg)
    (I := Cpp.PdomCtrl.Rep) (G := fun _ => True) cfg.pdomDepth Cpp.PdomCtrl.paths cppSignals
    PdomOutput.activeMask PdomOutput.stackEmpty
    (fun s i hs _ => (Cpp.PdomCtrl.tick_spec h31 hs i).1)
    (fun s i hs _ => (Cpp.PdomCtrl.tick_spec h31 hs i).2.symm)
    (fun s i hs => (hout s i).symm ▸ hs.curr)
    (fun s i _ => (hout s i).symm ▸ rfl)
    (fun s i hs => (hout s i).symm ▸ (Cpp.PdomCtrl.stackEmpty_iff hs).symm)
    h0 (by omega) (by omega) hbelow hlanes (reset_rep h31 c) (reset_paths h31 c) h
    (fun _ _ => trivial)
  refine ⟨hruns, Cpp.PdomCtrl.resuming_eq_none.mp ?_, ?_, (Cpp.PdomCtrl.deferred_eq_nil hrep).mp ?_⟩
  · rw [hlast]
    rfl
  · apply (lanesOf_inj hrep.curr hbelow).mp
    rw [hlanes]
    exact congrArg Paths.active hlast
  · rw [hlast]
    rfl

end CppSide

/-! ## `pdom_ctrl` -/

section RtlSide

variable {lanes depth : Nat}

def rtlSignals (inp : PdomIn lanes pcW) : Signals lanes pcW :=
  ⟨inp.branchFire, inp.branchCond, inp.reconvergePc, inp.pathDone⟩

theorem rtl_runsTree (h0 : 1 ≤ lanes) (hdepth : lanes - 1 ≤ depth) {t : DivTree lanes pcW}
    {is : List (PdomIn lanes pcW)} (h : Drives (BitVec.allOnes lanes) t (is.map rtlSignals)) :
    let outs :=
      (Rtl.PdomCtrl.machine lanes pcW depth).outsWhen PdomIn.pathDone Rtl.PdomCtrl.reset is
    let last := (Rtl.PdomCtrl.machine lanes pcW depth).after Rtl.PdomCtrl.reset is
    RunsTree (BitVec.allOnes lanes) t (outs.map PdomOut.activeMask) (outs.map PdomOut.stackEmpty) ∧
      last.state = .run ∧ last.currMask = BitVec.allOnes lanes ∧ last.uStack.empty = true := by
  have hbelow : Below lanes (BitVec.allOnes lanes) := Rtl.PdomCtrl.below _
  have hlanes : lanesOf lanes (BitVec.allOnes lanes) = ⊤ := lanesOf_allOnes (Nat.le_refl lanes)
  -- A driven tree never pushes and pops in one cycle.
  obtain ⟨hruns, hrep, hlast⟩ := runsTree_of_reads (M := Rtl.PdomCtrl.machine lanes pcW depth)
    (I := Rtl.PdomCtrl.Rep) (G := fun inp => ¬ (inp.branchFire = true ∧ inp.pathDone = true))
    depth Rtl.PdomCtrl.paths rtlSignals PdomOut.activeMask PdomOut.stackEmpty
    (fun s i hs _ => (Rtl.PdomCtrl.posedge_spec hs i).1)
    (fun s i hs hi => by
      rw [pathsMachine_next, ← Paths.edgeStep_eq_step fun hcol => hi ⟨hcol.2.1, hcol.2.2.1⟩]
      exact (Rtl.PdomCtrl.posedge_spec hs i).2.symm)
    (fun _ _ _ => Rtl.PdomCtrl.below _) (fun _ _ _ => rfl)
    (fun s i hs => (Rtl.PdomCtrl.empty_iff_deferred hs).symm)
    h0 (Nat.le_refl lanes) (by omega) hbelow hlanes Rtl.PdomCtrl.reset_rep
    Rtl.PdomCtrl.reset_paths h (fun i hi => h.alone _ (List.mem_map_of_mem hi))
  refine ⟨hruns, Rtl.PdomCtrl.resuming_eq_none.mp ?_, ?_,
    (Rtl.PdomCtrl.empty_iff_deferred hrep).mpr ?_⟩
  · rw [hlast]
    rfl
  · apply (lanesOf_inj (Rtl.PdomCtrl.below _) hbelow).mp
    rw [hlanes]
    exact congrArg Paths.active hlast
  · rw [hlast]
    rfl

end RtlSide

/-- A reset controller driven by a divergence tree runs its paths THEN first and
depth first, in C++ and in RTL. -/
theorem depth_first_traversal {cfg : Config} (h0 : 1 ≤ cfg.lanes) (h31 : cfg.lanes ≤ 31)
    (hdepth : max 1 (cfg.lanes - 1) ≤ cfg.pdomDepth) (pcW : Nat) :
    (∀ (c : Cpp.PdomCtrl cfg) (t : DivTree 32 32) (is : List PdomInput),
      Drives (Cpp.laneMask cfg) t (is.map cppSignals) →
        let outs := (Cpp.PdomCtrl.machine cfg).outsWhen PdomInput.pathDone c.reset is
        let last := (Cpp.PdomCtrl.machine cfg).after c.reset is
        RunsTree (Cpp.laneMask cfg) t (outs.map PdomOutput.activeMask)
            (outs.map PdomOutput.stackEmpty) ∧
          last.state = .run ∧ last.currMask = Cpp.laneMask cfg ∧ last.sp = 0) ∧
      ∀ (t : DivTree cfg.lanes pcW) (is : List (PdomIn cfg.lanes pcW)),
        Drives (BitVec.allOnes cfg.lanes) t (is.map rtlSignals) →
          let rtl := Rtl.PdomCtrl.machine cfg.lanes pcW cfg.pdomDepth
          let outs := rtl.outsWhen PdomIn.pathDone Rtl.PdomCtrl.reset is
          let last := rtl.after Rtl.PdomCtrl.reset is
          RunsTree (BitVec.allOnes cfg.lanes) t (outs.map PdomOut.activeMask)
              (outs.map PdomOut.stackEmpty) ∧
            last.state = .run ∧ last.currMask = BitVec.allOnes cfg.lanes ∧
              last.uStack.empty = true := by
  have hroom : cfg.lanes - 1 ≤ cfg.pdomDepth := Nat.le_trans (Nat.le_max_right 1 _) hdepth
  exact ⟨fun c _ _ h => cpp_runsTree h0 h31 hroom c h, fun _ _ h => rtl_runsTree h0 hroom h⟩

/-- The one branch of the divergence test. -/
theorem depth_first_traversal_split :
    RunsTree (Cpp.laneMask {}) (DivTree.node 0xCA 0 .leaf .leaf : DivTree 32 32) [0xCA, 0x35]
      [false, true] :=
  ((@depth_first_traversal {} (by decide) (by decide) (by decide) 16).1
    (Cpp.PdomCtrl.fresh {}) (.node 0xCA 0 .leaf .leaf)
    [{ branchFire := true, branchCond := 0xCA }, { pathDone := true }, {}, { pathDone := true }]
    (drives_script _ (.node 0xCA 0 .leaf .leaf))).1

end Pdom
end Simt
