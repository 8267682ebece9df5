import Simt.Sm.Progress

/-
The SM with a stream at the ports of every warp.

`driver` puts the streams on the ports the way the divergence testbench does by
hand.  What is left open in each cycle is the registers that the instructions
name and whether a warp holds back.
-/

namespace Simt
namespace Sm

open Rtl (Params SmIn SmOut MiniSmTop Operands RegId)

variable {p : Params}

/-! ## The closed loop -/

/-- What a warp is free to choose in a cycle. -/
structure Choice (p : Params) where
  hold : Bool
  src0 : RegId p
  src1 : RegId p
  dst : RegId p
  hasDst : Bool

/-- The code of a warp, what follows it, and the values it starts with. -/
structure Kernel (p : Params) where
  code : WarpCode p
  later : List (WarpCode p)
  acc : Operands p.lanes p.dataWidth

namespace Stream

def isOp (st : Stream p) : Bool :=
  match st.code with
  | .op _ _ => true
  | _ => false

def isBranch (st : Stream p) : Bool :=
  match st.code with
  | .branch _ _ _ _ => true
  | _ => false

/-- The operation shown.  A branch is a compare, as in the testbench. -/
def shownOp (st : Stream p) : AluOp p :=
  match st.code with
  | .op o _ => o
  | _ => (6, Vector.replicate _ 0)

def shownCond (st : Stream p) : BitVec p.lanes :=
  match st.code with
  | .branch c _ _ _ => condBits c st.acc
  | _ => 0

def shownPc (st : Stream p) : BitVec p.pcW :=
  match st.code with
  | .branch _ pc _ _ => pc
  | _ => 0

instance (k : WarpCode p) : Decidable (k = .exit) :=
  match k with
  | .exit => isTrue rfl
  | .op _ _ => isFalse fun h => nomatch h
  | .branch _ _ _ _ => isFalse fun h => nomatch h

instance (st : Stream p) : Decidable st.Halted := inferInstanceAs (Decidable (_ ∧ _ ∧ _ ∧ _))

end Stream

def driver (strs : Vector (Stream p) p.warps) (ch : Vector (Choice p) p.warps) : SmIn p where
  warpHasInstr := Vector.ofFn fun w =>
    !ch[w].hold && !strs[w].popping && (strs[w].isOp || strs[w].isBranch)
  warpInstr := Vector.ofFn fun w =>
    ⟨ch[w].src0, ch[w].src1, ch[w].dst, ch[w].hasDst, strs[w].shownOp.1⟩
  warpA := Vector.ofFn fun w => strs[w].acc
  warpB := Vector.ofFn fun w => strs[w].shownOp.2
  warpIsBranch := Vector.ofFn fun w => strs[w].isBranch
  warpBranchCond := Vector.ofFn fun w => strs[w].shownCond
  warpReconvergePc := Vector.ofFn fun w => strs[w].shownPc
  warpPathDone := Vector.ofFn fun w =>
    !ch[w].hold && !(strs[w].isOp || strs[w].isBranch)

/-- The SM and the streams, clocked together. -/
def system (kernels : Vector (Kernel p) p.warps) :
    Mealy (MiniSmTop p × Vector (Stream p) p.warps) (Vector (Choice p) p.warps) (SmOut p) where
  init := (MiniSmTop.reset, kernels.map fun k => Stream.start k.code k.later k.acc)
  next s ch :=
    let inp := driver s.2 ch
    (s.1.posedge false inp, Vector.ofFn fun w => s.2[w].next inp (s.1.output inp) w)
  out s ch := s.1.output (driver s.2 ch)

section Run

variable (kernels : Vector (Kernel p) p.warps) (u : Nat → Vector (Choice p) p.warps)

/-- The ports of the SM in cycle `t`. -/
def portsAt (t : Nat) : SmIn p := driver ((system kernels).stateAt u t).2 (u t)

/-- The stream of warp `w` at the start of cycle `t`. -/
def streamAt (w : Fin p.warps) (t : Nat) : Stream p := ((system kernels).stateAt u t).2[w]

theorem stateAt_fst (t : Nat) :
    ((system kernels).stateAt u t).1 = (MiniSmTop.machine p).stateAt (portsAt kernels u) t := by
  induction t with
  | zero => rfl
  | succ t ih =>
    show (((system kernels).stateAt u t).1).posedge false (portsAt kernels u t) = _
    rw [ih]
    rfl

theorem presents_driver (strs : Vector (Stream p) p.warps) (ch : Vector (Choice p) p.warps)
    (w : Fin p.warps) : strs[w].Presents (driver strs ch) w := by
  have hhas : (driver strs ch).warpHasInstr.getD w false =
      (!ch[w].hold && !strs[w].popping && (strs[w].isOp || strs[w].isBranch)) :=
    getD_ofFn _ w.isLt _
  have hdone : (driver strs ch).warpPathDone.getD w false =
      (!ch[w].hold && !(strs[w].isOp || strs[w].isBranch)) := getD_ofFn _ w.isLt _
  have hbranch : (driver strs ch).warpIsBranch.getD w false = strs[w].isBranch :=
    getD_ofFn _ w.isLt _
  have hsel : ((driver strs ch).warpInstr.getD w default).sel = strs[w].shownOp.1 :=
    congrArg Rtl.InstrMeta.sel (getD_ofFn _ w.isLt _)
  have ha : (driver strs ch).warpA.getD w (Vector.replicate _ 0) = strs[w].acc :=
    getD_ofFn _ w.isLt _
  have hb : (driver strs ch).warpB.getD w (Vector.replicate _ 0) = strs[w].shownOp.2 :=
    getD_ofFn _ w.isLt _
  have hcond : (driver strs ch).warpBranchCond.getD w 0 = strs[w].shownCond :=
    getD_ofFn _ w.isLt _
  have hpc : (driver strs ch).warpReconvergePc.getD w 0 = strs[w].shownPc := getD_ofFn _ w.isLt _
  generalize strs[w] = st at *
  rw [Stream.Presents]
  cases hp : st.popping with
  | true => rw [if_pos rfl, hhas, hp, Bool.not_true, Bool.and_false, Bool.false_and]
  | false =>
    rw [if_neg Bool.false_ne_true]
    cases hk : st.code with
    | exit => simp [hhas, Stream.isOp, Stream.isBranch, hk]
    | op o k =>
      simp only [hdone, hbranch, hsel, ha, hb, Stream.isOp, Stream.isBranch, Stream.shownOp, hk,
        Bool.true_or, Bool.not_true, Bool.and_false, true_and, implies_true]
    | branch c pc t e =>
      simp only [hdone, hbranch, hcond, hpc, Stream.isOp, Stream.isBranch, Stream.shownCond,
        Stream.shownPc, hk, Bool.or_true, Bool.not_true, Bool.and_false, true_and, implies_true]

theorem eager_driver (strs : Vector (Stream p) p.warps) (ch : Vector (Choice p) p.warps)
    (w : Fin p.warps) (hhold : ch[w].hold = false) : strs[w].Eager (driver strs ch) w := by
  have hhas : (driver strs ch).warpHasInstr.getD w false =
      (!ch[w].hold && !strs[w].popping && (strs[w].isOp || strs[w].isBranch)) :=
    getD_ofFn _ w.isLt _
  have hdone : (driver strs ch).warpPathDone.getD w false =
      (!ch[w].hold && !(strs[w].isOp || strs[w].isBranch)) := getD_ofFn _ w.isLt _
  generalize strs[w] = st at *
  intro hp
  rw [hhas, hdone, hhold, hp]
  cases hk : st.code <;> simp [Stream.isOp, Stream.isBranch, hk]

theorem follows_system (w : Fin p.warps) :
    Follows (portsAt kernels u) w (streamAt kernels u w) where
  presents t := presents_driver _ _ w
  next t := by
    have hstep : streamAt kernels u w (t + 1) =
        (streamAt kernels u w t).next (portsAt kernels u t)
          ((((system kernels).stateAt u t).1).output (portsAt kernels u t)) w := by
      show (Vector.ofFn _)[w.val] = _
      rw [Vector.getElem_ofFn]
      rfl
    rw [hstep, stateAt_fst]
    rfl

theorem streamAt_zero (w : Fin p.warps) :
    streamAt kernels u w 0 = Stream.start kernels[w].code kernels[w].later kernels[w].acc := by
  show (kernels.map _)[w.val] = _
  rw [Vector.getElem_map]
  rfl

end Run

/-! ## A small run -/

/-- Two warps of two lanes. -/
def small : Params := ⟨2, 4, 2, 2, 1, 1, 1⟩

/-- Lanes with the value 0 add 5, the others double and subtract, and then all
lanes add 1. -/
def smallKernel (x y : BitVec 4) : Kernel small where
  code := .branch (fun _ x => x == 0) 1 (.op (0, #v[5, 5]) .exit)
    (.op (2, #v[2, 2]) (.op (1, #v[1, 4]) .exit))
  later := [.op (0, #v[1, 1]) .exit]
  acc := #v[x, y]

def smallKernels : Vector (Kernel small) small.warps := #v[smallKernel 0 4, smallKernel 3 0]

/-- Every instruction reads and writes register 0, and both warps hold back in
cycle `h`. -/
def depChoices (h t : Nat) : Vector (Choice small) small.warps :=
  Vector.replicate _ ⟨t == h, 0, 0, 0, true⟩

/-! ## Each lane runs alone -/

/-- Whatever the other warps present and however the scheduler interleaves them,
a warp that follows its stream ends with the values that the threads of its
lanes reach on their own. -/
theorem lanes_run_alone (hlanes : 1 ≤ p.lanes) (hdepth : p.lanes - 1 ≤ p.pdomDepth) {w : Nat}
    (hw : w < p.warps) {v : Nat → SmIn p} {str : Nat → Stream p} (hf : Follows v w str)
    {k : WarpCode p} {later : List (WarpCode p)} {acc : Operands p.lanes p.dataWidth}
    (h0 : str 0 = Stream.start k later acc) {t : Nat} (hhalt : (str t).Halted)
    (i : Fin p.lanes) :
    (str t).acc.getD i 0 = Code.runAll (laneSem p) i (k :: later) (acc.getD i 0) :=
  (laneState_of_halted hlanes hdepth hw hf h0 hhalt i).1

/-- Lane 1 of the first warp has the value 5. -/
theorem lanes_run_alone_small :
    (streamAt smallKernels (depChoices 3) ⟨0, by decide⟩ 12).acc.getD 1 0 = 5 :=
  (lanes_run_alone (p := small) (by decide) (by decide) (w := 0) (by decide)
    (follows_system smallKernels (depChoices 3) ⟨0, by decide⟩)
    (streamAt_zero smallKernels (depChoices 3) ⟨0, by decide⟩)
    (t := 12) (by decide +kernel) ⟨1, by decide⟩).trans (by decide +kernel)

/-- In every cycle the operations that a lane has committed are the first ones of
its own thread, each once and in program order, and at the end of the stream they
are all of them. -/
theorem lanes_commit_in_order (hlanes : 1 ≤ p.lanes) (hdepth : p.lanes - 1 ≤ p.pdomDepth)
    {w : Nat} (hw : w < p.warps) {v : Nat → SmIn p} {str : Nat → Stream p}
    (hf : Follows v w str) {k : WarpCode p} {later : List (WarpCode p)}
    {acc : Operands p.lanes p.dataWidth} (h0 : str 0 = Stream.start k later acc) (t : Nat)
    (i : Fin p.lanes) :
    committed v w i t <+: Code.opsAll (laneSem p) i (k :: later) (acc.getD i 0) ∧
      ((str t).Halted →
        committed v w i t = Code.opsAll (laneSem p) i (k :: later) (acc.getD i 0)) := by
  refine ⟨?_, fun hhalt => (laneState_of_halted hlanes hdepth hw hf h0 hhalt i).2⟩
  have hprefix := (onTrack_run hlanes hdepth hw hf h0 t).course.log_prefix i
  rw [Code.runAll_logged, List.nil_append] at hprefix
  exact hprefix

/-- Lane 1 of the first warp doubles, subtracts 4 and adds 1. -/
theorem lanes_commit_in_order_small :
    committed (portsAt smallKernels (depChoices 3)) 0 ⟨1, by decide⟩ 12 =
      [(2, #v[2, 2]), (1, #v[1, 4]), (0, #v[1, 1])] :=
  ((lanes_commit_in_order (p := small) (by decide) (by decide) (w := 0) (by decide)
    (follows_system smallKernels (depChoices 3) ⟨0, by decide⟩)
    (streamAt_zero smallKernels (depChoices 3) ⟨0, by decide⟩) 12 ⟨1, by decide⟩).2
      (by decide +kernel)).trans rfl

/-! ## All kernels complete -/

theorem regsInRange_driver {strs : Vector (Stream p) p.warps} {ch : Vector (Choice p) p.warps}
    (h : ∀ w : Fin p.warps, ch[w].src0.toNat < p.regs ∧ ch[w].src1.toNat < p.regs ∧
      ch[w].dst.toNat < p.regs) : RegsInRange (driver strs ch) := by
  intro w hw _
  have hinstr : (driver strs ch).warpInstr.getD w default =
      ⟨ch[w].src0, ch[w].src1, ch[w].dst, ch[w].hasDst, strs[w].shownOp.1⟩ := getD_ofFn _ hw _
  rw [hinstr]
  exact h ⟨w, hw⟩

theorem work_start (k : Kernel p) :
    (Stream.start k.code k.later k.acc).work =
      Code.costAll (issueWait p) (k.code :: k.later) := by
  simp only [Stream.start, Stream.work, Code.costAll_cons, Code.costAll_nil, Bool.false_eq_true,
    if_false]
  omega

/-- When no warp holds back, every warp is at the end of its kernel after at most
`EXEC_LATENCY + WARPS` cycles for each operation and branch of the kernel and two
for each of its paths, with the value of each thread in its lane. -/
theorem kernels_complete (hlanes : 1 ≤ p.lanes) (hdepth : p.lanes - 1 ≤ p.pdomDepth)
    (hW : 2 ≤ p.warps) (hL : 1 ≤ p.execLatency) (kernels : Vector (Kernel p) p.warps)
    {u : Nat → Vector (Choice p) p.warps}
    (hu : ∀ t, ∀ w : Fin p.warps, (u t)[w].hold = false ∧ (u t)[w].src0.toNat < p.regs ∧
      (u t)[w].src1.toNat < p.regs ∧ (u t)[w].dst.toNat < p.regs)
    (w : Fin p.warps) {t : Nat}
    (ht : Code.costAll (issueWait p) (kernels[w].code :: kernels[w].later) ≤ t) :
    (streamAt kernels u w t).Halted ∧ ∀ i : Fin p.lanes,
      (streamAt kernels u w t).acc.getD i 0 =
        Code.runAll (laneSem p) i (kernels[w].code :: kernels[w].later)
          (kernels[w].acc.getD i 0) := by
  have hf := follows_system kernels u w
  have h0 := streamAt_zero kernels u w
  obtain ⟨t', -, hle, hhalt⟩ := exists_halted hf hW hL w.isLt
    (fun t => regsInRange_driver fun w => (hu t w).2)
    (fun t => eager_driver _ _ w (hu t w).1) 0
  rw [h0, work_start, Nat.zero_add] at hle
  have hsame := halted_of_le hf hhalt (Nat.le_trans hle ht)
  rw [← hsame] at hhalt
  exact ⟨hhalt, fun i => (laneState_of_halted hlanes hdepth w.isLt hf h0 hhalt i).1⟩

theorem kernels_complete_small :
    (streamAt smallKernels (fun _ => depChoices 1 0) ⟨1, by decide⟩ 21).Halted :=
  (kernels_complete (p := small) (by decide) (by decide) (by decide) (by decide) smallKernels
    (fun _ w => by
      rw [depChoices, Fin.getElem_fin, Vector.getElem_replicate]
      decide)
    ⟨1, by decide⟩ (by decide +kernel)).1

end Sm
end Simt
