import Simt.Lib.LaneSet
import Simt.Lib.Registers
import Simt.Rtl.Alu

/-
`predicate_mask_unit.sv` and `simt_exec_mask_update.sv`: a compare on the lane
ALUs narrows the lane mask.

Both are combinational.  The condition of a lane is bit 0 of its predicated
result, so an inactive lane feeds bit 0 of its own operand into the mask update,
where the incoming mask covers it.
-/

namespace Simt
namespace Rtl

variable {lanes dataWidth : Nat}

/-! ## `predicate_mask_unit` -/

structure PredicateMaskOut (lanes : Nat) where
  laneMaskOut : BitVec lanes
  anyActive : Bool

def predicateMaskUnit (laneMaskIn cond : BitVec lanes) (invert enable : Bool) :
    PredicateMaskOut lanes :=
  let condSel := if invert then ~~~cond else cond
  let laneMaskOut := if enable then laneMaskIn &&& condSel else laneMaskIn
  ⟨laneMaskOut, laneMaskOut != 0⟩

/-! ## `simt_exec_mask_update` -/

/-- The input ports, `clk`, `rst` and the unused `out_ready` apart. -/
structure ExecMaskIn (lanes dataWidth : Nat) where
  inValid : Bool
  sel : BitVec 3
  laneMaskIn : BitVec lanes
  a : Operands lanes dataWidth
  b : Operands lanes dataWidth
  maskEnable : Bool
  invert : Bool

structure ExecMaskOut (lanes dataWidth : Nat) where
  exec : AluOut lanes dataWidth
  cond : BitVec lanes
  laneMaskNext : BitVec lanes
  anyActiveNext : Bool

/-- `sel` of the compare. -/
def sltSel : BitVec 3 := 0b110#3

/-- The extraction of the condition bits. -/
def extractCond (sel : BitVec 3) (lane : Vector (LaneOut dataWidth) lanes) : BitVec lanes :=
  maskOf lanes fun i => if sel = sltSel then (lane.getD i (passThrough 0)).out.getLsbD 0 else false

def simtExecMaskUpdate (inp : ExecMaskIn lanes dataWidth) : ExecMaskOut lanes dataWidth :=
  let exec := simtAlu inp.inValid inp.sel inp.laneMaskIn inp.a inp.b
  let cond := extractCond inp.sel exec.lane
  let pmuEn := inp.maskEnable && exec.outValid
  let pmu := predicateMaskUnit inp.laneMaskIn cond inp.invert pmuEn
  ⟨exec, cond, pmu.laneMaskOut, pmu.anyActive⟩

/-! ## One compare -/

/-- A transaction with `sel = SLT` and both enables high. -/
structure Compare (lanes dataWidth : Nat) where
  a : Operands lanes dataWidth
  b : Operands lanes dataWidth
  invert : Bool

/-- The block on an incoming mask and a compare. -/
def Compare.run (t : Compare lanes dataWidth) (m : BitVec lanes) : ExecMaskOut lanes dataWidth :=
  simtExecMaskUpdate ⟨true, sltSel, m, t.a, t.b, true, t.invert⟩

/-- Signed `a < b` in lane `i`. -/
def Compare.Less (t : Compare lanes dataWidth) (i : Nat) : Prop :=
  (t.a.getD i 0).toInt < (t.b.getD i 0).toInt

instance (t : Compare lanes dataWidth) (i : Nat) : Decidable (t.Less i) :=
  inferInstanceAs (Decidable (_ < _))

/-- The compare in lane `i` differs from `invert`. -/
def Compare.Keeps (t : Compare lanes dataWidth) (i : Nat) : Prop := decide (t.Less i) ≠ t.invert

/-- The masks of a list of compares, each fed back as the next mask. -/
def chain (m : BitVec lanes) (ts : List (Compare lanes dataWidth)) : BitVec lanes :=
  ts.foldl (fun m t => (t.run m).laneMaskNext) m

theorem simdLaneAlu_out (sel : BitVec 3) (in0 in1 : BitVec dataWidth) :
    (simdLaneAlu sel in0 in1).out = laneOp sel in0 in1 := by
  unfold simdLaneAlu
  dsimp only
  split_ifs <;> rfl

theorem getLsbD_laneOp_slt (hd : 1 ≤ dataWidth) (in0 in1 : BitVec dataWidth) :
    (laneOp sltSel in0 in1).getLsbD 0 = decide (in0.toInt < in1.toInt) := by
  have hop : laneOp sltSel in0 in1 = if in0.slt in1 then 1 else 0 := rfl
  have hslt : in0.slt in1 = decide (in0.toInt < in1.toInt) := rfl
  rw [hop, hslt]
  cases decide (in0.toInt < in1.toInt) with
  | false => simp
  | true =>
    rw [if_pos rfl]
    show (BitVec.ofNat dataWidth 1).getLsbD 0 = true
    rw [BitVec.getLsbD_one, decide_eq_true (show 0 < dataWidth from hd)]
    rfl

section Lane

variable (t : Compare lanes dataWidth) (m : BitVec lanes) {i : Nat}

/-- The condition bit of an active lane is the compare, and that of an inactive
one is bit 0 of its operand. -/
theorem getLsbD_cond (hd : 1 ≤ dataWidth) (hi : i < lanes) :
    (t.run m).cond.getLsbD i =
      if m.getLsbD i then decide (t.Less i) else (t.a.getD i 0).getLsbD 0 := by
  show (extractCond sltSel (simtAluCore sltSel m t.a t.b)).getLsbD i = _
  rw [extractCond, getLsbD_maskOf _ hi, if_pos rfl, simtAluCore, getD_ofFn _ hi]
  cases hm : m.getLsbD i with
  | false => rfl
  | true =>
    rw [if_pos rfl, if_pos rfl, simdLaneAlu_out, getLsbD_laneOp_slt hd]
    exact decide_eq_decide.mpr Iff.rfl

theorem Compare.keeps_then : Compare.Keeps { t with invert := false } i ↔ t.Less i := by
  show decide (t.Less i) ≠ false ↔ _
  rw [Bool.ne_false_iff, decide_eq_true_iff]

theorem Compare.keeps_else : Compare.Keeps { t with invert := true } i ↔ ¬ t.Less i := by
  show decide (t.Less i) ≠ true ↔ _
  rw [Ne, decide_eq_true_iff]

theorem laneMaskNext_eq :
    (t.run m).laneMaskNext =
      m &&& if t.invert then ~~~(t.run m).cond else (t.run m).cond := rfl

/-- A compare keeps the active lanes whose condition differs from `invert`. -/
theorem getLsbD_laneMaskNext (hd : 1 ≤ dataWidth) :
    (t.run m).laneMaskNext.getLsbD i = true ↔ m.getLsbD i = true ∧ t.Keeps i := by
  rw [laneMaskNext_eq, BitVec.getLsbD_and, Bool.and_eq_true]
  refine and_congr_right fun hm => ?_
  have hi : i < lanes := BitVec.lt_of_getLsbD hm
  have hcond := getLsbD_cond t m hd hi
  rw [if_pos hm] at hcond
  rw [Compare.Keeps, ← hcond]
  cases t.invert with
  | false => simp
  | true => simp [hi]

end Lane

/-! ## Chains -/

section Chain

variable (hd : 1 ≤ dataWidth)

theorem chain_append (m : BitVec lanes) (ts ts' : List (Compare lanes dataWidth)) :
    chain m (ts ++ ts') = chain (chain m ts) ts' := List.foldl_append

include hd

theorem getLsbD_chain (m : BitVec lanes) (ts : List (Compare lanes dataWidth)) (i : Nat) :
    (chain m ts).getLsbD i = true ↔ m.getLsbD i = true ∧ ∀ t ∈ ts, t.Keeps i := by
  induction ts generalizing m with
  | nil => simp [chain]
  | cons t ts ih =>
    have hcons : chain m (t :: ts) = chain (t.run m).laneMaskNext ts := rfl
    rw [hcons, ih, getLsbD_laneMaskNext t m hd, List.forall_mem_cons, and_assoc]

theorem chain_perm (m : BitVec lanes) {ts ts' : List (Compare lanes dataWidth)}
    (h : ts.Perm ts') : chain m ts = chain m ts' := by
  apply BitVec.eq_of_getLsbD_eq
  intro i _
  rw [Bool.eq_iff_iff, getLsbD_chain hd, getLsbD_chain hd]
  exact and_congr_right fun _ => forall_congr' fun t => imp_congr_left h.mem_iff

/-- The two updates of one compare share the incoming lanes out. -/
theorem partition (m : BitVec lanes) (t : Compare lanes dataWidth) :
    let thenMask := (Compare.run { t with invert := false } m).laneMaskNext
    let elseMask := (Compare.run { t with invert := true } m).laneMaskNext
    thenMask &&& elseMask = 0 ∧ thenMask ||| elseMask = m := by
  intro thenMask elseMask
  have hthen : ∀ i, thenMask.getLsbD i = true ↔ m.getLsbD i = true ∧ t.Less i := fun i =>
    (getLsbD_laneMaskNext { t with invert := false } m hd).trans
      (and_congr_right fun _ => Compare.keeps_then t)
  have helse : ∀ i, elseMask.getLsbD i = true ↔ m.getLsbD i = true ∧ ¬ t.Less i := fun i =>
    (getLsbD_laneMaskNext { t with invert := true } m hd).trans
      (and_congr_right fun _ => Compare.keeps_else t)
  constructor
  · apply BitVec.eq_of_getLsbD_eq
    intro i _
    have hzero : (0 : BitVec lanes).getLsbD i = false := BitVec.getLsbD_zero
    rw [BitVec.getLsbD_and, hzero, ← Bool.not_eq_true, Bool.and_eq_true, hthen, helse]
    exact fun h => h.2.2 h.1.2
  · apply BitVec.eq_of_getLsbD_eq
    intro i _
    rw [Bool.eq_iff_iff, BitVec.getLsbD_or, Bool.or_eq_true, hthen, helse, ← and_or_left]
    exact and_iff_left (Classical.em _)

/-- Compares fed one into the next intersect their predicates. -/
theorem chained_updates (m : BitVec lanes) (ts : List (Compare lanes dataWidth)) :
    (∀ i, (chain m ts).getLsbD i = true ↔ m.getLsbD i = true ∧ ∀ t ∈ ts, t.Keeps i) ∧
      (∀ ts' t, ts = ts' ++ [t] →
        ((t.run (chain m ts')).anyActiveNext = true ↔ chain m ts ≠ 0)) ∧
      (∀ ts', ts.Perm ts' → chain m ts = chain m ts') ∧
      (∀ t : Compare lanes dataWidth,
        let thenMask := (Compare.run { t with invert := false } m).laneMaskNext
        let elseMask := (Compare.run { t with invert := true } m).laneMaskNext
        thenMask &&& elseMask = 0 ∧ thenMask ||| elseMask = m) ∧
      ∀ ts' t i, i < lanes → (chain m ts).getLsbD i = false →
        (t.run (chain m ts)).cond.getLsbD i = (t.a.getD i 0).getLsbD 0 ∧
          (chain m (ts ++ t :: ts')).getLsbD i = false := by
  refine ⟨getLsbD_chain hd m ts, ?_, fun ts' h => chain_perm hd m h, partition hd m, ?_⟩
  · intro ts' t hts
    rw [hts, chain_append]
    exact bne_iff_ne
  · intro ts' t i hi hclear
    constructor
    · rw [getLsbD_cond t _ hd hi, hclear, if_neg Bool.false_ne_true]
    · rw [chain_append, ← Bool.not_eq_true, getLsbD_chain hd, hclear]
      exact fun h => Bool.false_ne_true h.1

end Chain

/-- Two compares on eight lanes, in either order. -/
theorem chained_updates_swap :
    @chain 8 32 0xFF
        [⟨.replicate _ 1, .replicate _ 2, false⟩, ⟨.replicate _ 3, .replicate _ 2, true⟩] =
      @chain 8 32 0xFF
        [⟨.replicate _ 3, .replicate _ 2, true⟩, ⟨.replicate _ 1, .replicate _ 2, false⟩] :=
  (@chained_updates 8 32 (by decide) 0xFF _).2.2.1 _ (List.Perm.swap _ _ _)

end Rtl
end Simt
