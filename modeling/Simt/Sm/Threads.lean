import Simt.Lib.Threads
import Simt.Rtl.ExecMaskUpdate
import Simt.Sm.WarpPdom

/-
Threads on the SM.

A warp presents the code of its threads at its ports: the operands of an
operation with the values of all lanes, a branch with the condition of every
lane, and `path_done` at the end of a path.  It holds each of them until the
scheduler takes it, and it presents nothing while its controller waits for a
pop.  The values are the first operands, and the result of an issued operation
takes their place.

Whatever the other warps do and however the scheduler interleaves them, each
lane goes through the operations of its own thread, once and in order.
-/

namespace Simt
namespace Sm

open Rtl (Params SmIn SmOut MiniSmTop Operands LaneOut laneOp)

variable {p : Params}

/-- An operation of the ALU with its second operands. -/
abbrev AluOp (p : Params) := BitVec 3 × Operands p.lanes p.dataWidth

/-- A condition on the value of each lane. -/
abbrev LaneCond (p : Params) := Fin p.lanes → BitVec p.dataWidth → Bool

/-- The code of a warp.  A branch is tagged with its reconvergence pc. -/
abbrev WarpCode (p : Params) := Code (AluOp p) (LaneCond p) (BitVec p.pcW)

def laneSem (p : Params) : LaneSem (Fin p.lanes) (BitVec p.dataWidth) (AluOp p) (LaneCond p) where
  apply o i x := laneOp o.1 x (o.2.getD i 0)
  test c i x := c i x

/-- What a warp has still to present, and the values of its lanes. -/
structure Stream (p : Params) where
  code : WarpCode p
  deferred : List (WarpCode p)
  later : List (WarpCode p)
  popping : Bool
  acc : Operands p.lanes p.dataWidth

namespace Stream

/-- The lanes whose value meets the condition. -/
def condBits (c : LaneCond p) (acc : Operands p.lanes p.dataWidth) : BitVec p.lanes :=
  maskOf p.lanes fun i => if h : i < p.lanes then c ⟨i, h⟩ (acc.getD i 0) else false

def start (k : WarpCode p) (later : List (WarpCode p)) (acc : Operands p.lanes p.dataWidth) :
    Stream p :=
  ⟨k, [], later, false, acc⟩

def Halted (st : Stream p) : Prop :=
  st.code = .exit ∧ st.deferred = [] ∧ st.later = [] ∧ st.popping = false

/-- The ports of warp `w` show the stream.  The warp may hold back its
instruction or its `path_done`. -/
def Presents (st : Stream p) (inp : SmIn p) (w : Nat) : Prop :=
  if st.popping then inp.warpHasInstr.getD w false = false
  else match st.code with
    | .exit => inp.warpHasInstr.getD w false = false
    | .op o _ =>
      inp.warpPathDone.getD w false = false ∧
        (inp.warpHasInstr.getD w false = true →
          inp.warpIsBranch.getD w false = false ∧ (inp.warpInstr.getD w default).sel = o.1 ∧
            inp.warpA.getD w (Vector.replicate _ 0) = st.acc ∧
              inp.warpB.getD w (Vector.replicate _ 0) = o.2)
    | .branch c pc _ _ =>
      inp.warpPathDone.getD w false = false ∧
        (inp.warpHasInstr.getD w false = true →
          inp.warpIsBranch.getD w false = true ∧
            inp.warpBranchCond.getD w 0 = condBits c st.acc ∧
              inp.warpReconvergePc.getD w 0 = pc)

/-- The end of a path: the latest deferred code, or the next code of the warp. -/
def endPath (st : Stream p) : Stream p :=
  match st.deferred with
  | k :: ks => { st with code := k, deferred := ks, popping := true }
  | [] =>
    match st.later with
    | k :: ks => { st with code := k, later := ks }
    | [] => st

/-- An issued branch of a warp with active mask `m`. -/
def takeBranch (st : Stream p) (m : BitVec p.lanes) (c : LaneCond p) (t e : WarpCode p) :
    Stream p :=
  if m &&& condBits c st.acc = 0 then { st with code := e }
  else if m &&& ~~~condBits c st.acc = 0 then { st with code := t }
  else { st with code := t, deferred := e :: st.deferred }

/-- The stream after a cycle in which warp `w` saw `out`. -/
def next (st : Stream p) (inp : SmIn p) (out : SmOut p) (w : Nat) : Stream p :=
  let issued := out.issueValid && out.issueWarpId.toNat == w
  if st.popping then { st with popping := false }
  else match st.code with
    | .exit => if inp.warpPathDone.getD w false then st.endPath else st
    | .op _ k => if issued then { st with code := k, acc := out.alu.lane.map LaneOut.out } else st
    | .branch c _ t e =>
      if issued then st.takeBranch (out.warpActiveMask.getD w 0) c t e else st

/-- The codes of the running path and the deferred ones, the path that has just
ended first. -/
def codes (st : Stream p) : List (WarpCode p) :=
  if st.popping then .exit :: st.code :: st.deferred else st.code :: st.deferred

end Stream

/-- Warp `w` presents the stream `str` in every cycle. -/
structure Follows (v : Nat → SmIn p) (w : Nat) (str : Nat → Stream p) : Prop where
  presents : ∀ t, (str t).Presents (v t) w
  next : ∀ t, str (t + 1) = (str t).next (v t) ((MiniSmTop.machine p).outAt v t) w

/-! ## The paths of a warp and its stream -/

/-- The values of the lanes with the operations they went through. -/
def laneState (st : Stream p) (log : Fin p.lanes → List (AluOp p)) (i : Fin p.lanes) :
    BitVec p.dataWidth × List (AluOp p) :=
  (st.acc.getD i 0, log i)

/-- The paths of the controller carry the codes of the stream, and every lane is
on its way to `final`. -/
structure OnTrack (final : Fin p.lanes → BitVec p.dataWidth × List (AluOp p))
    (P : Paths (Finset (Fin p.lanes)) (BitVec p.pcW)) (st : Stream p)
    (log : Fin p.lanes → List (AluOp p)) : Prop where
  popping : st.popping = P.resuming.isSome
  length : st.deferred.length = P.deferred.length
  course : OnCourse (laneSem p).logged final st.later (P.masks.zip st.codes) (laneState st log)

namespace OnTrack

variable {final : Fin p.lanes → BitVec p.dataWidth × List (AluOp p)}
  {P : Paths (Finset (Fin p.lanes)) (BitVec p.pcW)} {st : Stream p}
  {log : Fin p.lanes → List (AluOp p)}

theorem codes_running (hp : st.popping = false) : st.codes = st.code :: st.deferred := by
  rw [Stream.codes, hp, if_neg Bool.false_ne_true]

theorem masks_running (hr : P.resuming = none) :
    P.masks = P.active :: P.deferred.map Prod.fst := by
  rw [Paths.masks, hr]
  rfl

theorem resuming_of_running (h : OnTrack final P st log) (hp : st.popping = false) :
    P.resuming = none := by
  have hs := h.popping
  rw [hp] at hs
  exact Option.isSome_eq_false_iff.mp hs.symm |> Option.isNone_iff_eq_none.mp

/-- The first entry of the table is the running path. -/
theorem course_running (h : OnTrack final P st log) (hp : st.popping = false) :
    OnCourse (laneSem p).logged final st.later
      ((P.active, st.code) :: (P.deferred.map Prod.fst).zip st.deferred) (laneState st log) := by
  have hc := h.course
  rw [codes_running hp, masks_running (h.resuming_of_running hp), List.zip_cons_cons] at hc
  exact hc

/-- The popped path takes the place of the one that ended. -/
theorem pop (h : OnTrack final P st log) (hp : st.popping = true) :
    ∃ r, P.resuming = some r ∧
      OnTrack final ⟨r.1, P.deferred, none⟩ { st with popping := false } log := by
  have hs := h.popping
  rw [hp] at hs
  obtain ⟨r, hr⟩ := Option.isSome_iff_exists.mp hs.symm
  refine ⟨r, hr, rfl, h.length, ?_⟩
  have hc := h.course
  have hcodes : st.codes = .exit :: st.code :: st.deferred := by
    rw [Stream.codes, hp, if_pos rfl]
  have hmasks : P.masks = P.active :: r.1 :: P.deferred.map Prod.fst := by
    rw [Paths.masks, hr]
    rfl
  rw [hcodes, hmasks, List.zip_cons_cons] at hc
  exact hc.drop

/-- A running warp is on track when its first entry and the deferred ones are. -/
theorem of_running (hr : P.resuming = none) (hp : st.popping = false)
    (hlen : st.deferred.length = P.deferred.length)
    (hc : OnCourse (laneSem p).logged final st.later
      ((P.active, st.code) :: (P.deferred.map Prod.fst).zip st.deferred) (laneState st log)) :
    OnTrack final P st log := by
  refine ⟨?_, hlen, ?_⟩
  · rw [hp, hr]
    rfl
  · rw [codes_running hp, masks_running hr]
    exact hc

/-- The lanes of the path that ends wait for the others, and the latest deferred
path comes next.  After the last path all lanes come together. -/
theorem endPath (hlanes : 1 ≤ p.lanes) (h : OnTrack final P st log) (hp : st.popping = false)
    (hk : st.code = .exit) : OnTrack final P.finish st.endPath log := by
  have : Nonempty (Fin p.lanes) := ⟨⟨0, hlanes⟩⟩
  have hr := h.resuming_of_running hp
  have hc := h.course_running hp
  have hlen := h.length
  obtain ⟨A, D, R⟩ := P
  obtain ⟨code, deferred, later, popping, acc⟩ := st
  simp only at hp hk hr hc hlen
  subst hp hk hr
  cases D with
  | cons r rest =>
    cases deferred with
    | nil => exact absurd hlen (by simp)
    | cons k ks =>
      -- The path that ended keeps its entry in the table until the pop.
      exact ⟨rfl, Nat.succ.inj hlen, hc⟩
  | nil =>
    cases deferred with
    | cons k ks => exact absurd hlen (by simp)
    | nil =>
      cases later with
      | cons k ks => exact of_running rfl rfl rfl hc.drop.join
      | nil => exact of_running rfl rfl rfl hc.drop.rest

/-- An issued operation: the active lanes take it and log it. -/
theorem op {o : AluOp p} {k : WarpCode p} {acc : Operands p.lanes p.dataWidth}
    {log' : Fin p.lanes → List (AluOp p)} (h : OnTrack final P st log) (hp : st.popping = false)
    (hk : st.code = .op o k)
    (hin : ∀ i : Fin p.lanes, i ∈ P.active →
      acc.getD i 0 = laneOp o.1 (st.acc.getD i 0) (o.2.getD i 0) ∧ log' i = log i ++ [o])
    (hout : ∀ i : Fin p.lanes, i ∉ P.active → acc.getD i 0 = st.acc.getD i 0 ∧ log' i = log i) :
    OnTrack final P { st with code := k, acc := acc } log' := by
  have hc := h.course_running hp
  rw [hk] at hc
  refine of_running (h.resuming_of_running hp) hp h.length (hc.op (fun i hi => ?_) fun i hi => ?_)
  · exact Prod.ext (hin i hi).1 (hin i hi).2
  · exact Prod.ext (hout i hi).1 (hout i hi).2

theorem mem_condBits (c : LaneCond p) (i : Fin p.lanes) :
    i ∈ lanesOf p.lanes (Stream.condBits c st.acc) ↔
      (laneSem p).logged.test c i (laneState st log i) = true := by
  rw [mem_lanesOf, Stream.condBits, getLsbD_maskOf _ i.isLt, dif_pos i.isLt]
  rfl

/-- A split leaves room on a stack with as many entries as there are lanes but
one. -/
theorem room (hdepth : p.lanes - 1 ≤ p.pdomDepth) (h : OnTrack final P st log)
    (hp : st.popping = false) {c : Finset (Fin p.lanes)} (hs : P.Splits c) :
    P.deferred.length < p.pdomDepth := by
  have hapart := (h.course_running hp).apart
  have hfst : ((P.deferred.map Prod.fst).zip st.deferred).map Prod.fst = P.deferred.map Prod.fst :=
    List.map_fst_zip (by rw [List.length_map, h.length])
  rw [List.map_cons, hfst] at hapart
  have hlen := (hapart.split hs.1 hs.2).length_le
  simp only [List.length_cons, List.length_map, Fintype.card_fin] at hlen
  omega

/-- An issued branch, with the active mask `m` of the controller. -/
theorem takeBranch (hdepth : p.lanes - 1 ≤ p.pdomDepth) {c : LaneCond p} {pc : BitVec p.pcW}
    {t e : WarpCode p} {m : BitVec p.lanes} (h : OnTrack final P st log) (hp : st.popping = false)
    (hk : st.code = .branch c pc t e) (hm : lanesOf p.lanes m = P.active) :
    OnTrack final (P.branch p.pdomDepth (lanesOf p.lanes (Stream.condBits c st.acc)) pc)
      (st.takeBranch m c t e) log := by
  have hr := h.resuming_of_running hp
  have hc := h.course_running hp
  rw [hk] at hc
  have htaken := fun i => @mem_condBits p st log c i
  have hthen : m &&& Stream.condBits c st.acc = 0 ↔
      P.active ⊓ lanesOf p.lanes (Stream.condBits c st.acc) = ⊥ := by
    rw [← hm, ← lanesOf_and]
    exact (lanesOf_eq_bot (Rtl.PdomCtrl.below _)).symm
  have helse : m &&& ~~~Stream.condBits c st.acc = 0 ↔
      P.active \ lanesOf p.lanes (Stream.condBits c st.acc) = ⊥ := by
    rw [← hm, ← lanesOf_not_and (Nat.le_refl _), BitVec.and_comm]
    exact (lanesOf_eq_bot (Rtl.PdomCtrl.below _)).symm
  rw [Stream.takeBranch]
  by_cases hnone : m &&& Stream.condBits c st.acc = 0
  · have hns : ¬ P.Splits (lanesOf p.lanes (Stream.condBits c st.acc)) :=
      fun hs => hs.1 (hthen.mp hnone)
    rw [if_pos hnone, Paths.branch, if_neg hns]
    exact of_running hr hp h.length (hc.noneTaken htaken (hthen.mp hnone))
  · rw [if_neg hnone]
    by_cases hall : m &&& ~~~Stream.condBits c st.acc = 0
    · have hns : ¬ P.Splits (lanesOf p.lanes (Stream.condBits c st.acc)) :=
        fun hs => hs.2 (helse.mp hall)
      rw [if_pos hall, Paths.branch, if_neg hns]
      exact of_running hr hp h.length (hc.allTaken htaken (helse.mp hall))
    · have hs : P.Splits (lanesOf p.lanes (Stream.condBits c st.acc)) :=
        ⟨mt hthen.mpr hnone, mt helse.mpr hall⟩
      rw [if_neg hall, Paths.branch, if_pos hs, if_pos (h.room hdepth hp hs)]
      exact of_running hr hp (congrArg Nat.succ h.length) (hc.split htaken hs.1 hs.2)

end OnTrack

/-! ## The run -/

section Run

variable (v : Nat → SmIn p) (w : Nat)

/-- Warp `w` issues in cycle `t`. -/
def Issues (t : Nat) : Prop :=
  ((MiniSmTop.machine p).stateAt v t).issueValid (v t) = true ∧
    (((MiniSmTop.machine p).stateAt v t).issueWarpId (v t)).toNat = w

instance (t : Nat) : Decidable (Issues v w t) := inferInstanceAs (Decidable (_ ∧ _))

/-- The operations that lane `i` of warp `w` has committed before cycle `t`:
those issued while it was active. -/
def committed (i : Fin p.lanes) : Nat → List (AluOp p)
  | 0 => []
  | t + 1 =>
    committed i t ++
      if Issues v w t ∧ (v t).warpIsBranch.getD w false = false ∧
          (((MiniSmTop.machine p).stateAt v t).warpActiveMask.getD w 0).getLsbD i = true then
        [(((v t).warpInstr.getD w default).sel,
          (v t).warpB.getD w (Vector.replicate _ 0))]
      else []

variable {v w}

theorem issued_iff {t : Nat} :
    (((MiniSmTop.machine p).outAt v t).issueValid &&
      ((MiniSmTop.machine p).outAt v t).issueWarpId.toNat == w) = true ↔ Issues v w t := by
  rw [Bool.and_eq_true, beq_iff_eq]
  exact Iff.rfl

theorem hasInstr_of_issues {t : Nat} (h : Issues v w t) :
    (v t).warpHasInstr.getD w false = true := by
  obtain ⟨hvalid, rfl⟩ := h
  exact (Rtl.WarpScheduler.issue_spec _ hvalid).2

/-- What the ALU puts in lane `i` while warp `w` issues. -/
theorem alu_of_issues {t : Nat} (h : Issues v w t) (i : Fin p.lanes) :
    (((MiniSmTop.machine p).outAt v t).alu.lane.map LaneOut.out).getD i 0 =
      if (((MiniSmTop.machine p).stateAt v t).warpActiveMask.getD w 0).getLsbD i = true then
        laneOp ((v t).warpInstr.getD w default).sel
          (((v t).warpA.getD w (Vector.replicate _ 0)).getD i 0)
          (((v t).warpB.getD w (Vector.replicate _ 0)).getD i 0)
      else ((v t).warpA.getD w (Vector.replicate _ 0)).getD i 0 := by
  obtain ⟨-, rfl⟩ := h
  rw [getD_of_lt _ i.isLt, Vector.getElem_map]
  show ((Rtl.simtAluCore _ _ _ _)[i.val]).out = _
  simp only [Rtl.simtAluCore, Vector.getElem_ofFn]
  split
  · exact Rtl.simdLaneAlu_out _ _ _
  · rfl

namespace Follows

variable {str : Nat → Stream p} (hf : Follows v w str) {t : Nat}

include hf

theorem next_popping (hp : (str t).popping = true) :
    str (t + 1) = { str t with popping := false } := by
  rw [hf.next t, Stream.next, if_pos hp]

variable (hp : (str t).popping = false)

include hp

theorem next_exit (hk : (str t).code = .exit) :
    str (t + 1) = if (v t).warpPathDone.getD w false then (str t).endPath else str t := by
  simp only [hf.next t, Stream.next, hp, hk, Bool.false_eq_true, if_false]

theorem next_op {o : AluOp p} {k : WarpCode p} (hk : (str t).code = .op o k) :
    str (t + 1) =
      if Issues v w t then
        { str t with
          code := k, acc := ((MiniSmTop.machine p).outAt v t).alu.lane.map LaneOut.out }
      else str t := by
  simp only [hf.next t, Stream.next, hp, hk, Bool.false_eq_true, if_false, issued_iff]

theorem next_branch {c : LaneCond p} {pc : BitVec p.pcW} {kt ke : WarpCode p}
    (hk : (str t).code = .branch c pc kt ke) :
    str (t + 1) =
      if Issues v w t then
        (str t).takeBranch (((MiniSmTop.machine p).outAt v t).warpActiveMask.getD w 0) c kt ke
      else str t := by
  simp only [hf.next t, Stream.next, hp, hk, Bool.false_eq_true, if_false, issued_iff]

end Follows

/-! One cycle of the controller. -/

section Cycle

variable (hw : w < p.warps) (t : Nat)

/-- The paths of warp `w` at the start of cycle `t`. -/
abbrev pathsAt (v : Nat → SmIn p) (w t : Nat) : Paths (Finset (Fin p.lanes)) (BitVec p.pcW) :=
  (((MiniSmTop.machine p).stateAt v t).pdom w).paths

include hw

theorem fire_eq :
    (Rtl.PdomCtrl.event (((MiniSmTop.machine p).stateAt v t).pdomIn (v t) w)).fire =
      decide (Issues v w t ∧ (v t).warpIsBranch.getD w false = true) := by
  rw [Bool.eq_iff_iff, decide_eq_true_iff]
  refine (MiniSmTop.branchFire_iff _ _ hw).trans ?_
  rw [Issues]
  tauto

theorem pathsAt_succ (halone : (v t).warpPathDone.getD w false = true → ¬ Issues v w t) :
    pathsAt v w (t + 1) = (pathsAt v w t).step p.pdomDepth
      (Rtl.PdomCtrl.event (((MiniSmTop.machine p).stateAt v t).pdomIn (v t) w)) := by
  rw [pathsAt, MiniSmTop.paths_succ _ _ hw, Paths.edgeStep_eq_step]
  intro hc
  have hissue := of_decide_eq_true ((fire_eq hw t).symm.trans hc.2.1)
  exact halone hc.2.2.1 hissue.1

/-- Without an issued branch or the end of a path the paths stay. -/
theorem pathsAt_of_idle (hr : (pathsAt v w t).resuming = none)
    (hfire : ¬ (Issues v w t ∧ (v t).warpIsBranch.getD w false = true))
    (hdone : (v t).warpPathDone.getD w false = false) : pathsAt v w (t + 1) = pathsAt v w t := by
  rw [pathsAt_succ hw t fun h => absurd (hdone.symm.trans h) Bool.false_ne_true]
  exact Paths.step_idle hr ((fire_eq hw t).trans (decide_eq_false hfire)) hdone

theorem pathsAt_of_done (hr : (pathsAt v w t).resuming = none) (hquiet : ¬ Issues v w t)
    (hdone : (v t).warpPathDone.getD w false = true) :
    pathsAt v w (t + 1) = (pathsAt v w t).finish := by
  rw [pathsAt_succ hw t fun _ => hquiet]
  exact Paths.step_finish hr ((fire_eq hw t).trans (decide_eq_false fun h => hquiet h.1)) hdone

theorem pathsAt_of_branch (hr : (pathsAt v w t).resuming = none) (hissue : Issues v w t)
    (hbranch : (v t).warpIsBranch.getD w false = true)
    (hdone : (v t).warpPathDone.getD w false = false) :
    pathsAt v w (t + 1) = (pathsAt v w t).branch p.pdomDepth
      (lanesOf p.lanes ((v t).warpBranchCond.getD w 0)) ((v t).warpReconvergePc.getD w 0) := by
  rw [pathsAt_succ hw t fun h => absurd (hdone.symm.trans h) Bool.false_ne_true]
  exact Paths.step_branch hr ((fire_eq hw t).trans (decide_eq_true ⟨hissue, hbranch⟩)) hdone

theorem pathsAt_of_popping {r : Finset (Fin p.lanes) × BitVec p.pcW}
    (hr : (pathsAt v w t).resuming = some r) :
    pathsAt v w (t + 1) = ⟨r.1, (pathsAt v w t).deferred, none⟩ := by
  rw [pathsAt, MiniSmTop.paths_succ _ _ hw]
  exact Paths.edgeStep_resuming hr

omit hw in
theorem committed_of_quiet (hquiet : ¬ Issues v w t) (i : Fin p.lanes) :
    committed v w i (t + 1) = committed v w i t := by
  rw [committed, if_neg fun h => hquiet h.1, List.append_nil]

omit hw in
theorem not_issues_of_no_instr (h : (v t).warpHasInstr.getD w false = false) :
    ¬ Issues v w t := by
  intro hi
  have hsome := hasInstr_of_issues hi
  rw [h] at hsome
  exact Bool.false_ne_true hsome

/-! One cycle, by what the stream shows. -/

section Shows

variable {final : Fin p.lanes → BitVec p.dataWidth × List (AluOp p)} {str : Nat → Stream p}
  (hf : Follows v w str)
  (h : OnTrack final (pathsAt v w t) (str t) fun i => committed v w i t)

include hf h

theorem onTrack_popping (hp : (str t).popping = true) :
    OnTrack final (pathsAt v w (t + 1)) (str (t + 1)) fun i => committed v w i (t + 1) := by
  obtain ⟨r, hr, hpop⟩ := h.pop hp
  have hpres := hf.presents t
  rw [Stream.Presents, if_pos hp] at hpres
  have hquiet := not_issues_of_no_instr t hpres
  rw [hf.next_popping hp, pathsAt_of_popping hw t hr]
  simp only [committed_of_quiet t hquiet]
  exact hpop

variable (hp : (str t).popping = false)

include hp

theorem onTrack_exit (hlanes : 1 ≤ p.lanes) (hk : (str t).code = .exit) :
    OnTrack final (pathsAt v w (t + 1)) (str (t + 1)) fun i => committed v w i (t + 1) := by
  have hr := h.resuming_of_running hp
  have hpres := hf.presents t
  simp only [Stream.Presents, hp, hk, Bool.false_eq_true, if_false] at hpres
  have hquiet := not_issues_of_no_instr t hpres
  rw [hf.next_exit hp hk]
  simp only [committed_of_quiet t hquiet]
  cases hd : (v t).warpPathDone.getD w false with
  | true =>
    rw [if_pos rfl, pathsAt_of_done hw t hr hquiet hd]
    exact h.endPath hlanes hp hk
  | false =>
    rw [if_neg Bool.false_ne_true, pathsAt_of_idle hw t hr (fun hi => hquiet hi.1) hd]
    exact h

theorem onTrack_op {o : AluOp p} {k : WarpCode p} (hk : (str t).code = .op o k) :
    OnTrack final (pathsAt v w (t + 1)) (str (t + 1)) fun i => committed v w i (t + 1) := by
  have hr := h.resuming_of_running hp
  have hpres := hf.presents t
  simp only [Stream.Presents, hp, hk, Bool.false_eq_true, if_false] at hpres
  obtain ⟨hdone, hshows⟩ := hpres
  rw [hf.next_op hp hk]
  by_cases hissue : Issues v w t
  · obtain ⟨hbranch, hsel, ha, hb⟩ := hshows (hasInstr_of_issues hissue)
    have hidle : ¬ (Issues v w t ∧ (v t).warpIsBranch.getD w false = true) :=
      fun hi => Bool.false_ne_true (hbranch.symm.trans hi.2)
    have hmask := MiniSmTop.warpActiveMask_getD ((MiniSmTop.machine p).stateAt v t) hw
    rw [if_pos hissue, pathsAt_of_idle hw t hr hidle hdone]
    refine h.op hp hk (fun i hi => ?_) fun i hi => ?_
    all_goals
      rw [pathsAt, Rtl.PdomCtrl.paths] at hi
      simp only [mem_lanesOf, ← hmask] at hi
      rw [alu_of_issues hissue, committed, hsel, ha, hb]
    · rw [if_pos hi, if_pos ⟨hissue, hbranch, hi⟩]
      exact ⟨rfl, rfl⟩
    · rw [if_neg hi, if_neg fun hx => hi hx.2.2, List.append_nil]
      exact ⟨rfl, rfl⟩
  · rw [if_neg hissue, pathsAt_of_idle hw t hr (fun hi => hissue hi.1) hdone]
    simp only [committed_of_quiet t hissue]
    exact h

theorem onTrack_branch (hdepth : p.lanes - 1 ≤ p.pdomDepth) {c : LaneCond p} {pc : BitVec p.pcW}
    {kt ke : WarpCode p} (hk : (str t).code = .branch c pc kt ke) :
    OnTrack final (pathsAt v w (t + 1)) (str (t + 1)) fun i => committed v w i (t + 1) := by
  have hr := h.resuming_of_running hp
  have hpres := hf.presents t
  simp only [Stream.Presents, hp, hk, Bool.false_eq_true, if_false] at hpres
  obtain ⟨hdone, hshows⟩ := hpres
  rw [hf.next_branch hp hk]
  by_cases hissue : Issues v w t
  · obtain ⟨hbranch, hcond, hpc⟩ := hshows (hasInstr_of_issues hissue)
    have hlog : ∀ i, committed v w i (t + 1) = committed v w i t := by
      intro i
      rw [committed, if_neg fun hx => Bool.false_ne_true (hx.2.1.symm.trans hbranch),
        List.append_nil]
    rw [if_pos hissue, pathsAt_of_branch hw t hr hissue hbranch hdone, hcond, hpc]
    simp only [hlog]
    refine h.takeBranch hdepth hp hk ?_
    exact congrArg (lanesOf p.lanes)
      (MiniSmTop.warpActiveMask_getD ((MiniSmTop.machine p).stateAt v t) hw)
  · rw [if_neg hissue, pathsAt_of_idle hw t hr (fun hi => hissue hi.1) hdone]
    simp only [committed_of_quiet t hissue]
    exact h

end Shows

theorem onTrack_succ {final : Fin p.lanes → BitVec p.dataWidth × List (AluOp p)}
    {str : Nat → Stream p} (hlanes : 1 ≤ p.lanes) (hdepth : p.lanes - 1 ≤ p.pdomDepth)
    (hf : Follows v w str)
    (h : OnTrack final (pathsAt v w t) (str t) fun i => committed v w i t) :
    OnTrack final (pathsAt v w (t + 1)) (str (t + 1)) fun i => committed v w i (t + 1) := by
  cases hp : (str t).popping with
  | true => exact onTrack_popping hw t hf h hp
  | false =>
    cases hk : (str t).code with
    | exit => exact onTrack_exit hw t hf h hp hlanes hk
    | op o k => exact onTrack_op hw t hf h hp hk
    | branch c pc kt ke => exact onTrack_branch hw t hf h hp hdepth hk

end Cycle

/-- In every cycle each lane of a warp that follows its stream is on its way to
what its own thread comes to. -/
theorem onTrack_run (hlanes : 1 ≤ p.lanes) (hdepth : p.lanes - 1 ≤ p.pdomDepth)
    (hw : w < p.warps) {str : Nat → Stream p} (hf : Follows v w str) {k : WarpCode p}
    {later : List (WarpCode p)} {acc : Operands p.lanes p.dataWidth}
    (h0 : str 0 = Stream.start k later acc) (t : Nat) :
    OnTrack (fun i => Code.runAll (laneSem p).logged i (k :: later) (acc.getD i 0, []))
      (pathsAt v w t) (str t) fun i => committed v w i t := by
  induction t with
  | zero =>
    have : Nonempty (Fin p.lanes) := ⟨⟨0, hlanes⟩⟩
    have hpaths : pathsAt v w 0 = Paths.start := MiniSmTop.paths_zero v w
    rw [hpaths, h0]
    exact OnTrack.of_running rfl rfl rfl (OnCourse.start k later _)
  | succ t ih => exact onTrack_succ hw t hlanes hdepth hf ih

theorem laneState_of_halted (hlanes : 1 ≤ p.lanes) (hdepth : p.lanes - 1 ≤ p.pdomDepth)
    (hw : w < p.warps) {str : Nat → Stream p} (hf : Follows v w str) {k : WarpCode p}
    {later : List (WarpCode p)} {acc : Operands p.lanes p.dataWidth}
    (h0 : str 0 = Stream.start k later acc) {t : Nat} (hhalt : (str t).Halted)
    (i : Fin p.lanes) :
    (str t).acc.getD i 0 = Code.runAll (laneSem p) i (k :: later) (acc.getD i 0) ∧
      committed v w i t = Code.opsAll (laneSem p) i (k :: later) (acc.getD i 0) := by
  obtain ⟨hcode, hdef, hlater, hp⟩ := hhalt
  have hc := (onTrack_run hlanes hdepth hw hf h0 t).course_running hp
  rw [hcode, hdef, hlater, List.zip_nil_right] at hc
  have hfin := hc.drop.finished i
  rw [Code.runAll_logged, List.nil_append] at hfin
  exact ⟨congrArg Prod.fst hfin, congrArg Prod.snd hfin⟩

end Run

end Sm
end Simt
