import Simt.Lib.Testbench
import Simt.Sm.RtlCounters

/-
The directed tests of `tb_divergence_phase4.sv` on `mini_sm_top`.

The checks of the testbench print and count errors and change nothing that the
SM sees, so a run is its assignments and its waits.  The tests read four
registers and write a fifth, which keeps every instruction free to issue: no
wait of the testbench lasts longer than an edge.
-/

namespace Simt
namespace Rtl
namespace TbDivergencePhase4

variable {p : Params}

/-! ## The stimulus -/

def clearAllWarps : SmIn p where
  warpHasInstr := Vector.replicate _ false
  warpInstr := Vector.replicate _ default
  warpA := Vector.replicate _ (Vector.replicate _ 0)
  warpB := Vector.replicate _ (Vector.replicate _ 0)
  warpIsBranch := Vector.replicate _ false
  warpBranchCond := Vector.replicate _ 0
  warpReconvergePc := Vector.replicate _ 0
  warpPathDone := Vector.replicate _ false

/-- `make_instr`, as far as `mini_sm_top` reads it. -/
def makeInstr (s0 s1 d : BitVec 4) (hasD : Bool) : InstrMeta p :=
  { src0 := s0.setWidth _, src1 := s1.setWidth _, dst := d.setWidth _, hasDst := hasD, sel := 0 }

def makeBranchInstr (s0 s1 : BitVec 4) : InstrMeta p :=
  { src0 := s0.setWidth _, src1 := s1.setWidth _, dst := 0, hasDst := false, sel := 6 }

abbrev TbStmt (p : Params) := Stmt (SmIn p) (SmOut p)

/-- Warp `w` presents a branch. -/
def presentBranch (w : Nat) (s0 s1 : BitVec 4) (cond : BitVec 8) (pc : BitVec 16) (x : SmIn p) :
    SmIn p :=
  { x with
    warpHasInstr := x.warpHasInstr.setIfInBounds w true
    warpInstr := x.warpInstr.setIfInBounds w (makeBranchInstr s0 s1)
    warpIsBranch := x.warpIsBranch.setIfInBounds w true
    warpBranchCond := x.warpBranchCond.setIfInBounds w (cond.setWidth _)
    warpReconvergePc := x.warpReconvergePc.setIfInBounds w (pc.setWidth _) }

/-- Warp 0 goes on with an instruction that is no branch. -/
def dropBranch (x : SmIn p) : SmIn p :=
  { x with
    warpIsBranch := x.warpIsBranch.setIfInBounds 0 false
    warpInstr := x.warpInstr.setIfInBounds 0 (makeInstr 5 6 7 true) }

def setHasInstr (w : Nat) (b : Bool) (x : SmIn p) : SmIn p :=
  { x with warpHasInstr := x.warpHasInstr.setIfInBounds w b }

def setIsBranch (w : Nat) (b : Bool) (x : SmIn p) : SmIn p :=
  { x with warpIsBranch := x.warpIsBranch.setIfInBounds w b }

def setPathDone (w : Nat) (b : Bool) (x : SmIn p) : SmIn p :=
  { x with warpPathDone := x.warpPathDone.setIfInBounds w b }

/-- The loop `warp_a[0][l] = 32'(l + k)`. -/
def laneNumbers (k : Nat) : Operands p.lanes p.dataWidth :=
  Vector.ofFn fun l => (BitVec.ofNat 32 (l.val + k)).setWidth _

/-- `repeat (n) @(posedge clk)`. -/
def posedges (n : Nat) : List (TbStmt p) := List.replicate n .posedge

/-- `wait_issue_any`. -/
def waitIssueAny (timeoutCycles : Nat) : TbStmt p := .waitFor timeoutCycles SmOut.issueValid

/-- `repeat (2) @(negedge clk)` at the falling edge that ends the reset.  The reset
itself leaves the state that the run starts from. -/
def afterReset : List (TbStmt p) := [.cycle, .cycle]

def presentTest1 (x : SmIn p) : SmIn p :=
  { presentBranch 0 1 2 0xCA 0x0300 x with
    warpA := x.warpA.setIfInBounds 0 (laneNumbers 0)
    warpB := x.warpB.setIfInBounds 0 (laneNumbers 1) }

def test1 : List (TbStmt p) := List.flatten [
  [.assign presentTest1, waitIssueAny 10, .assign dropBranch, .posedge],
  posedges 2,
  [.assign (setPathDone 0 true), .posedge, .assign (setPathDone 0 false), .posedge, .posedge],
  posedges 2,
  [.assign (setPathDone 0 true), .posedge, .assign (setPathDone 0 false), .posedge],
  [.assign (setHasInstr 0 false)],
  posedges 2]

def presentTest2 (x : SmIn p) : SmIn p :=
  { presentBranch 0 1 2 0xFF 0x0400 x with
    warpA := x.warpA.setIfInBounds 0 (laneNumbers 0) }

def test2 : List (TbStmt p) := List.flatten [
  [.assign presentTest2, waitIssueAny 10, .posedge],
  [.assign (setHasInstr 0 false), .assign (setIsBranch 0 false)],
  posedges 2]

def test3 : List (TbStmt p) := List.flatten [
  [.assign (presentBranch 0 1 2 0xF0 0x0500), .assign (presentBranch 1 5 6 0x0F 0x0600)],
  posedges (p.warps + 4),
  [.assign (setHasInstr 0 false), .assign (setHasInstr 1 false)],
  [.assign (setIsBranch 0 false), .assign (setIsBranch 1 false)],
  [.assign (setPathDone 0 true), .assign (setPathDone 1 true), .posedge],
  [.assign (setPathDone 0 false), .assign (setPathDone 1 false)],
  posedges 3,
  [.assign (setPathDone 0 true), .assign (setPathDone 1 true), .posedge],
  [.assign (setPathDone 0 false), .assign (setPathDone 1 false)],
  posedges 3]

def test4 : List (TbStmt p) := List.flatten [
  [.assign (presentBranch 0 1 2 0xCA 0x0700), waitIssueAny 10, .assign dropBranch],
  posedges 5,
  [.assign (setPathDone 0 true), .posedge, .assign (setPathDone 0 false)],
  posedges 2,
  [.assign (setPathDone 0 true), .posedge, .assign (setPathDone 0 false)],
  [.assign (setHasInstr 0 false)],
  posedges (p.execLatency + 2)]

/-- `run_tests`, from the registers that the reset leaves. -/
def runTests (p : Params) (late : Nat → Bool) : Bench (MiniSmTop p) (SmIn p) :=
  Bench.run (MiniSmTop.machine p) late ⟨MiniSmTop.reset, clearAllWarps, none, 0⟩
    (afterReset ++ (test1 ++ (test2 ++ (test3 ++ test4))))

/-- The counters at `$finish`, with the last edge counted if the registers sample
it before the simulation ends. -/
def finalCounters (p : Params) (late : Nat → Bool) (last : Bool) : Counters :=
  let b := runTests p late
  (if last then (b.sample (MiniSmTop.machine p) late).state else b.state).counters

/-! ## Every instruction is free to issue -/

/-- The register that the tests write. -/
def writtenReg (p : Params) : RegId p := (7 : BitVec 4).setWidth _

/-- An instruction that reads other registers and writes no other. -/
def TameInstr (m : InstrMeta p) : Prop :=
  m.src0 ≠ writtenReg p ∧ m.src1 ≠ writtenReg p ∧ (m.hasDst = true → m.dst = writtenReg p)

/-- The warps present such instructions. -/
def Tame (x : SmIn p) : Prop := ∀ w, TameInstr (x.warpInstr.getD w default)

/-- No other register is busy. -/
structure Clean (s : MiniSmTop p) : Prop where
  ready : ∀ w, w < p.warps → s.warpReady.getD w false = true
  rrPtr : s.uWarpScheduler.rrPtr.toNat < p.warps
  read : ∀ w r, s.uScoreboard.read w r = true → r = (writtenReg p).toNat

section Clean

variable {s : MiniSmTop p} {x : SmIn p}

theorem reset_clean (hW : 1 ≤ p.warps) : Clean (MiniSmTop.reset : MiniSmTop p) := by
  refine ⟨fun w hw => WarpTable.warpReady_reset hw, ?_, fun w r h => ?_⟩
  · have hzero : (MiniSmTop.reset : MiniSmTop p).uWarpScheduler.rrPtr.toNat = 0 := BitVec.toNat_zero
    rw [hzero]
    exact hW
  · have hfree : (MiniSmTop.reset : MiniSmTop p).uScoreboard.read w r = false :=
      Scoreboard.read_reset w r
    rw [hfree] at h
    exact absurd h Bool.false_ne_true

theorem posedge_clean (hs : Clean s) (hx : Tame x) : Clean (s.posedge false x) := by
  refine ⟨fun w hw => ?_, ?_, fun w r h => ?_⟩
  · have htable : (s.posedge false x).uWarpTable = s.uWarpTable := WarpTable.posedge_no_stall _
    rw [MiniSmTop.warpReady, htable]
    exact hs.ready w hw
  · exact WarpScheduler.rrPtr_lt_posedge hs.rrPtr MiniSmTop.issueWarpId_lt
  · obtain ⟨hw, hr⟩ := Scoreboard.lt_of_read h
    rcases (Scoreboard.read_posedge _ _ _ _ _ _ _ _ _ hw hr).mp h with hissue | hkept
    · obtain ⟨hfire, -, rfl⟩ := hissue
      rw [Bool.and_eq_true] at hfire
      exact congrArg BitVec.toNat ((hx _).2.2 hfire.2)
    · exact hs.read w r hkept.1

theorem not_blocked (hs : Clean s) (hx : Tame x) (w : Nat) : ¬ s.Blocked x w := by
  intro h
  obtain ⟨h0, h1, -⟩ := hx w
  rcases h with h | h
  · exact h0 (BitVec.eq_of_toNat_eq (hs.read w _ h))
  · exact h1 (BitVec.eq_of_toNat_eq (hs.read w _ h))

theorem issueValid_of_presents (hs : Clean s) (hx : Tame x) {w : Nat}
    (hw : MiniSmTop.Presents x w) : s.issueValid x = true :=
  (MiniSmTop.issueValid_iff hs.ready hs.rrPtr).mpr ⟨w, hw, not_blocked hs hx w⟩

theorem scoreboardBlocked_eq_false (hs : Clean s) (hx : Tame x) :
    s.scoreboardBlocked x = false := by
  rw [← Bool.not_eq_true, MiniSmTop.scoreboardBlocked_iff hs.ready]
  rintro ⟨w, -, hw⟩
  exact not_blocked hs hx w hw

end Clean

/-! ## The assignments -/

/-- The registers that the tests read differ from the written one in their low
two bits. -/
theorem ne_writtenReg (hR : 3 ≤ p.regs) {r : BitVec 4}
    (hr : (r.getLsbD 0 && r.getLsbD 1) = false) : r.setWidth p.regIdW ≠ writtenReg p := by
  have hwidth : 2 ≤ p.regIdW := by
    by_contra hlt
    have hle : p.regIdW ≤ 1 := by omega
    have hfew : p.regs ≤ 2 ^ 1 := (Nat.clog_le_iff_le_pow Nat.one_lt_two).mp hle
    omega
  intro h
  have hbit : ∀ i, i < 2 → r.getLsbD i = (7 : BitVec 4).getLsbD i := by
    intro i hi
    have hi' := congrArg (fun b => b.getLsbD i) h
    simpa only [writtenReg, BitVec.getLsbD_setWidth, show i < p.regIdW by omega, decide_true,
      Bool.true_and] using hi'
  rw [hbit 0 (by decide), hbit 1 (by decide)] at hr
  exact absurd hr (by decide)

theorem tame_makeInstr (hR : 3 ≤ p.regs) : TameInstr (makeInstr 5 6 7 true : InstrMeta p) :=
  ⟨ne_writtenReg hR (by decide), ne_writtenReg hR (by decide), fun _ => rfl⟩

theorem tame_makeBranchInstr (hR : 3 ≤ p.regs) {s0 s1 : BitVec 4}
    (h0 : (s0.getLsbD 0 && s0.getLsbD 1) = false) (h1 : (s1.getLsbD 0 && s1.getLsbD 1) = false) :
    TameInstr (makeBranchInstr s0 s1 : InstrMeta p) :=
  ⟨ne_writtenReg hR h0, ne_writtenReg hR h1, fun h => absurd h Bool.false_ne_true⟩

section Assignments

variable {x y : SmIn p}

theorem tame_clearAllWarps (hR : 3 ≤ p.regs) : Tame (clearAllWarps : SmIn p) := by
  intro w
  have hdefault : (clearAllWarps : SmIn p).warpInstr.getD w default = default := getD_replicate _ _
  have hwidth : (0 : BitVec 4).setWidth p.regIdW = 0 := BitVec.setWidth_zero p.regIdW 4
  have hzero : (0 : RegId p) ≠ writtenReg p := hwidth ▸ ne_writtenReg hR (by decide)
  rw [hdefault]
  exact ⟨hzero, hzero, fun h => absurd h Bool.false_ne_true⟩

theorem tame_set (hx : Tame x) {w : Nat} {m : InstrMeta p} (hm : TameInstr m)
    (h : y.warpInstr = x.warpInstr.setIfInBounds w m) : Tame y := by
  intro v
  rw [h]
  by_cases hv : w = v
  · subst hv
    by_cases hw : w < p.warps
    · rw [getD_setIfInBounds_self _ hw]
      exact hm
    · have hdefault := hx w
      rw [getD_of_ge _ (Nat.le_of_not_lt hw)] at hdefault ⊢
      exact hdefault
  · rw [getD_setIfInBounds_ne _ hv]
    exact hx v

theorem presents_zero (hW : 1 ≤ p.warps)
    (h : y.warpHasInstr = x.warpHasInstr.setIfInBounds 0 true) :
    MiniSmTop.Presents y 0 :=
  ⟨hW, by rw [h]; exact getD_setIfInBounds_self _ hW _ _⟩

end Assignments

section StaysIn

variable {w : Nat} {b : Bool}

theorem staysIn_setHasInstr : (Stmt.assign (setHasInstr w b) : TbStmt p).StaysIn Tame :=
  fun _ hx => hx

theorem staysIn_setIsBranch : (Stmt.assign (setIsBranch w b) : TbStmt p).StaysIn Tame :=
  fun _ hx => hx

theorem staysIn_setPathDone : (Stmt.assign (setPathDone w b) : TbStmt p).StaysIn Tame :=
  fun _ hx => hx

variable (hR : 3 ≤ p.regs)

include hR

theorem staysIn_dropBranch : (Stmt.assign dropBranch : TbStmt p).StaysIn Tame :=
  fun _ hx => tame_set hx (tame_makeInstr hR) rfl

/-- An assignment of a branch at the instruction ports. -/
theorem staysIn_branch {s0 s1 : BitVec 4} (h0 : (s0.getLsbD 0 && s0.getLsbD 1) = false)
    (h1 : (s1.getLsbD 0 && s1.getLsbD 1) = false) {f : SmIn p → SmIn p}
    (hf : ∀ x, (f x).warpInstr = x.warpInstr.setIfInBounds w (makeBranchInstr s0 s1)) :
    (Stmt.assign f : TbStmt p).StaysIn Tame :=
  fun x hx => tame_set hx (tame_makeBranchInstr hR h0 h1) (hf x)

theorem staysIn_presentTest1 : (Stmt.assign presentTest1 : TbStmt p).StaysIn Tame :=
  staysIn_branch hR (by decide) (by decide) fun _ => rfl

theorem staysIn_presentTest2 : (Stmt.assign presentTest2 : TbStmt p).StaysIn Tame :=
  staysIn_branch hR (by decide) (by decide) fun _ => rfl

theorem staysIn_presentBranch (cond : BitVec 8) (pc : BitVec 16) :
    (Stmt.assign (presentBranch 0 1 2 cond pc) : TbStmt p).StaysIn Tame :=
  staysIn_branch hR (by decide) (by decide) fun _ => rfl

theorem staysIn_tests :
    ∀ s ∈ (afterReset ++ (test1 ++ (test2 ++ (test3 ++ test4))) : List (TbStmt p)),
      s.StaysIn Tame := by
  have hsecond : (Stmt.assign (presentBranch 1 5 6 0x0F 0x0600) : TbStmt p).StaysIn Tame :=
    staysIn_branch hR (by decide) (by decide) fun _ => rfl
  simp only [afterReset, test1, test2, test3, test4, posedges, waitIssueAny, List.flatten_cons,
    List.flatten_nil, List.forall_mem_append, List.forall_mem_cons, List.forall_mem_replicate,
    Stmt.staysIn_posedge, Stmt.staysIn_cycle, Stmt.staysIn_waitFor, staysIn_setHasInstr,
    staysIn_setIsBranch, staysIn_setPathDone, staysIn_dropBranch hR, staysIn_presentTest1 hR,
    staysIn_presentTest2 hR, staysIn_presentBranch hR, hsecond, List.not_mem_nil,
    IsEmpty.forall_iff, implies_true, or_true, and_self]

end StaysIn

theorem noWait_tests :
    (∀ s ∈ (afterReset : List (TbStmt p)), s.NoWait) ∧
      (∀ s ∈ (test1 : List (TbStmt p)).drop 2, s.NoWait) ∧
      (∀ s ∈ (test2 : List (TbStmt p)).drop 2, s.NoWait) ∧
      (∀ s ∈ (test3 : List (TbStmt p)), s.NoWait) ∧
      ∀ s ∈ (test4 : List (TbStmt p)).drop 2, s.NoWait := by
  simp only [afterReset, test1, test2, test3, test4, posedges, List.flatten_cons, List.flatten_nil,
    List.cons_append, List.drop_succ_cons, List.drop_zero, List.forall_mem_append,
    List.forall_mem_cons, List.forall_mem_replicate, Stmt.NoWait, List.not_mem_nil,
    IsEmpty.forall_iff, implies_true, or_true, and_self]

theorem countP_waits :
    (afterReset ++ (test1 ++ (test2 ++ (test3 ++ test4))) : List (TbStmt p)).countP Stmt.waits =
      43 + p.warps + p.execLatency := by
  simp only [afterReset, test1, test2, test3, test4, posedges, waitIssueAny, List.flatten_cons,
    List.flatten_nil, List.countP_append, List.countP_cons, List.countP_nil, List.countP_replicate,
    Stmt.waits, if_true, if_false, Bool.false_eq_true]
  omega

/-! ## The counters -/

/-- The counters after `n` edges, `k` of which issued at the least. -/
structure Counted (k : Nat) (s : MiniSmTop p) (n : Nat) : Prop where
  clean : Clean s
  cycles : s.counters.cycleCount = BitVec.ofNat 32 n
  stalls : s.counters.stallDataHazard = 0
  issues : ∃ i, k ≤ i ∧ i ≤ n ∧ s.counters.issueCount = BitVec.ofNat 32 i

section Counted

variable {k n : Nat} {s : MiniSmTop p} {x : SmIn p}

theorem Counted.mono {k' : Nat} (h : Counted k s n) (hk : k' ≤ k) : Counted k' s n := by
  obtain ⟨i, hi, hcount⟩ := h.issues
  exact ⟨h.clean, h.cycles, h.stalls, i, Nat.le_trans hk hi, hcount⟩

theorem Counted.next (h : Counted k s n) (hx : Tame x) :
    Counted (k + if s.issueValid x then 1 else 0) (s.posedge false x) (n + 1) := by
  obtain ⟨i, hk, hn, hi⟩ := h.issues
  have hcounters : (s.posedge false x).counters = s.countersNext x := rfl
  rw [MiniSmTop.countersNext_eq, scoreboardBlocked_eq_false h.clean hx, Bool.and_false] at hcounters
  refine ⟨posedge_clean h.clean hx, ?_, ?_, i + if s.issueValid x then 1 else 0, ?_, ?_, ?_⟩
  · rw [hcounters, h.cycles]
    exact (BitVec.ofNat_add n 1).symm
  · rw [hcounters]
    exact h.stalls
  · exact Nat.add_le_add_right hk _
  · split <;> omega
  · rw [hcounters, hi, tally_ofNat]

theorem Counted.step (h : Counted k s n) (hx : Tame x) :
    Counted k ((MiniSmTop.machine p).next s x) (n + 1) := (h.next hx).mono (Nat.le_add_right k _)

theorem reset_counted (hW : 1 ≤ p.warps) : Counted 0 (MiniSmTop.reset : MiniSmTop p) 0 :=
  ⟨reset_clean hW, rfl, rfl, 0, Nat.le_refl 0, Nat.le_refl 0, rfl⟩

end Counted

section Run

variable {late : Nat → Bool} {b : Bench (MiniSmTop p) (SmIn p)} {k : Nat}

theorem promptAt_waitIssueAny (hb : b.Keeps (Counted k) Tame) (hw : MiniSmTop.Presents b.inputs 0) :
    b.PromptAt (MiniSmTop.machine p) late (waitIssueAny 10) :=
  Bench.promptAt_waitFor (fun _ _ _ hs hx => hs.step hx) hb (by decide) fun _ _ hs =>
    issueValid_of_presents hs.clean hb.inputs hw

/-- A test that begins with a branch and waits for nothing after its issue. -/
theorem triple_branch {stmts : List (TbStmt p)} {f : SmIn p → SmIn p}
    (hs : ∀ s ∈ stmts, s.StaysIn Tame) (hf : (Stmt.assign f : TbStmt p).StaysIn Tame)
    (hw : ∀ x, MiniSmTop.Presents (f x) 0) (hstmts : stmts.take 2 = [.assign f, waitIssueAny 10])
    (hrest : ∀ s ∈ stmts.drop 2, s.NoWait) :
    Bench.Triple (MiniSmTop.machine p) late Tame (Counted k) (Counted k) stmts := by
  intro b hb
  refine ⟨?_, hb.run (fun _ _ _ hs hx => hs.step hx) hs⟩
  have hassigned : (b.exec (MiniSmTop.machine p) late (.assign f)).Keeps (Counted k) Tame :=
    ⟨hb.state, hf _ hb.inputs, hb.found⟩
  rw [← List.take_append_drop 2 stmts, hstmts]
  exact ⟨trivial, promptAt_waitIssueAny hassigned (hw _), Bench.prompt_of_noWait hrest⟩

/-- The first edge of test 1 issues, whichever assignments it is sampled after. -/
theorem keeps_first_issue (hW : 1 ≤ p.warps) (hR : 3 ≤ p.regs) (hb : b.Keeps (Counted 0) Tame)
    (hnone : b.found = none) :
    (b.run (MiniSmTop.machine p) late (test1.take 4)).Keeps (Counted 1) Tame := by
  have hbranch : Tame (presentTest1 b.inputs) :=
    staysIn_presentTest1 hR _ hb.inputs
  have hdropped : Tame (dropBranch (presentTest1 b.inputs)) := staysIn_dropBranch hR _ hbranch
  have hassigned : (b.exec (MiniSmTop.machine p) late (.assign presentTest1)).Keeps (Counted 0)
      Tame := ⟨hb.state, hbranch, hb.found⟩
  have hprompt : (b.exec (MiniSmTop.machine p) late (.assign presentTest1)).PromptAt
      (MiniSmTop.machine p) late (waitIssueAny 10) :=
    promptAt_waitIssueAny hassigned (presents_zero hW rfl)
  have htake : (test1 : List (TbStmt p)).take 4 =
      [.assign presentTest1, waitIssueAny 10, .assign dropBranch, .posedge] := rfl
  rw [htake, waitIssueAny, Bench.run_assign_waitFor hnone hprompt]
  have hissue : ∀ x, Tame x → MiniSmTop.Presents x 0 →
      Counted 1 ((MiniSmTop.machine p).next b.state x) (b.edges + 1) := by
    intro x hx hw
    have hnext := hb.state.next hx
    rw [issueValid_of_presents hb.state.clean hx hw] at hnext
    exact hnext
  refine ⟨?_, hdropped, fun i hi => Option.some.inj hi ▸ hdropped⟩
  show Counted 1 ((MiniSmTop.machine p).next b.state (if late b.edges then _ else _)) (b.edges + 1)
  split
  · exact hissue _ hdropped (presents_zero hW rfl)
  · exact hissue _ hbranch (presents_zero hW rfl)

theorem keeps_test1 (hW : 1 ≤ p.warps) (hR : 3 ≤ p.regs) (hb : b.Keeps (Counted 0) Tame)
    (hnone : b.found = none) (hs : ∀ s ∈ (test1 : List (TbStmt p)), s.StaysIn Tame) :
    (b.run (MiniSmTop.machine p) late test1).Keeps (Counted 1) Tame := by
  rw [← List.take_append_drop 4 test1, Bench.run_append]
  exact (keeps_first_issue hW hR hb hnone).run (fun _ _ _ hs hx => hs.step hx)
    fun s hmem => hs s (List.mem_of_mem_drop hmem)

theorem found_test4 (b : Bench (MiniSmTop p) (SmIn p)) :
    (b.run (MiniSmTop.machine p) late test4).found.isSome = true := by
  simp only [test4, List.flatten_cons, List.flatten_nil, List.append_nil, Bench.run_append]
  exact Bench.found_run_posedges _ _

/-- No wait of the tests lasts longer than an edge, so the process comes to as many
edges as it has waits.  The registers have not sampled the last of them. -/
theorem runTests_spec (hW : 1 ≤ p.warps) (hR : 3 ≤ p.regs) (late : Nat → Bool) :
    (runTests p late).Keeps (Counted 1) Tame ∧
      (runTests p late).edges = 42 + p.warps + p.execLatency ∧
      (runTests p late).found.isSome = true := by
  obtain ⟨hs0, hs1, hs2, hs3, hs4⟩ : (∀ s ∈ (afterReset : List (TbStmt p)), s.StaysIn Tame) ∧
      (∀ s ∈ (test1 : List (TbStmt p)), s.StaysIn Tame) ∧
      (∀ s ∈ (test2 : List (TbStmt p)), s.StaysIn Tame) ∧
      (∀ s ∈ (test3 : List (TbStmt p)), s.StaysIn Tame) ∧
      ∀ s ∈ (test4 : List (TbStmt p)), s.StaysIn Tame := by
    simpa only [List.forall_mem_append] using staysIn_tests hR
  obtain ⟨hw0, hw1, hw2, hw3, hw4⟩ := @noWait_tests p
  have hstep : ∀ {k : Nat} (s : MiniSmTop p) n x, Counted k s n → Tame x →
      Counted k ((MiniSmTop.machine p).next s x) (n + 1) := fun _ _ _ hs hx => hs.step hx
  have hstart : Bench.Keeps (Counted 0) Tame ⟨MiniSmTop.reset, clearAllWarps, none, 0⟩ :=
    ⟨reset_counted hW, tame_clearAllWarps hR, fun _ h => by cases h⟩
  have h0 : Bench.Triple (MiniSmTop.machine p) late Tame (Counted 0) (Counted 0) afterReset :=
    .of_noWait hstep hs0 hw0
  have h1 : Bench.Triple (MiniSmTop.machine p) late Tame (Counted 0) (Counted 0) test1 :=
    triple_branch hs1 (staysIn_presentTest1 hR) (fun _ => presents_zero hW rfl) rfl hw1
  have h2 : Bench.Triple (MiniSmTop.machine p) late Tame (Counted 1) (Counted 1) test2 :=
    triple_branch hs2 (staysIn_presentTest2 hR) (fun _ => presents_zero hW rfl) rfl hw2
  have h3 : Bench.Triple (MiniSmTop.machine p) late Tame (Counted 1) (Counted 1) test3 :=
    .of_noWait hstep hs3 hw3
  have h4 : Bench.Triple (MiniSmTop.machine p) late Tame (Counted 1) (Counted 1) test4 :=
    triple_branch hs4 (staysIn_presentBranch hR _ _) (fun _ => presents_zero hW rfl) rfl hw4
  obtain ⟨hprompt0, hkeeps0⟩ := h0 _ hstart
  obtain ⟨hprompt1, -⟩ := h1 _ hkeeps0
  obtain ⟨hprompt2, hkeeps⟩ := h2.append (h3.append h4) _ (keeps_test1 hW hR hkeeps0 rfl hs1)
  have hreached := Bench.reached_run
    (Bench.prompt_append hprompt0 (Bench.prompt_append hprompt1 hprompt2))
  have hfound : (runTests p late).found.isSome = true := by
    rw [runTests, Bench.run_append, Bench.run_append, Bench.run_append, Bench.run_append]
    exact found_test4 _
  refine ⟨?_, ?_, hfound⟩
  · rw [runTests, Bench.run_append, Bench.run_append]
    exact hkeeps
  · have hedges : (runTests p late).reached = (runTests p late).edges + 1 := by
      rw [Bench.reached, hfound]
      rfl
    have hzero : Bench.reached (⟨MiniSmTop.reset, clearAllWarps, none, 0⟩ :
        Bench (MiniSmTop p) (SmIn p)) = 0 := rfl
    rw [hzero, countP_waits] at hreached
    change (runTests p late).reached = _ at hreached
    omega

/-- The counters of the tests: `WARPS + EXEC_LATENCY + 42` cycles, or one more, some
of them with an issue and none with a data hazard. -/
theorem finalCounters_spec (hW : 1 ≤ p.warps) (hR : 3 ≤ p.regs) (late : Nat → Bool) (last : Bool) :
    (finalCounters p late last).cycleCount =
        BitVec.ofNat 32 (42 + p.warps + p.execLatency + if last then 1 else 0) ∧
      (finalCounters p late last).stallDataHazard = 0 ∧
      ∃ i, 1 ≤ i ∧ i ≤ 42 + p.warps + p.execLatency + (if last then 1 else 0) ∧
        (finalCounters p late last).issueCount = BitVec.ofNat 32 i := by
  obtain ⟨hkeeps, hedges, hfound⟩ := runTests_spec hW hR late
  rw [← hedges]
  cases last with
  | false =>
    have h := hkeeps.state
    exact ⟨h.cycles, h.stalls, h.issues⟩
  | true =>
    obtain ⟨x, hx⟩ := Option.isSome_iff_exists.mp hfound
    have hsampled : ((runTests p late).sample (MiniSmTop.machine p) late).Keeps (Counted 1) Tame :=
      hkeeps.sample fun _ _ _ hs hx => hs.step hx
    have h := hsampled.state
    have hnext : ((runTests p late).sample (MiniSmTop.machine p) late).edges =
        (runTests p late).edges + 1 := by
      rw [Bench.sample_of_some hx]
    rw [hnext] at h
    exact ⟨h.cycles, h.stalls, h.issues⟩

end Run

/-- The parameters of the package, with the registers first at every edge. -/
example : finalCounters {} (fun _ => false) false =
    { cycleCount := 50
      issueCount := 31
      stallNoReadyWarp := 19
      cyclesWithIssue := 31
      wbCount := 31
      totalDivergeEvents := 4
      maskedThreadCycles := 100 } := by
  decide +kernel

theorem toNat_finalCounters (hW : 1 ≤ p.warps) (hR : 3 ≤ p.regs)
    (hsmall : p.warps + p.execLatency < 2 ^ 31) (late : Nat → Bool) (last : Bool) :
    (finalCounters p late last).cycleCount.toNat =
        42 + p.warps + p.execLatency + (if last then 1 else 0) ∧
      1 ≤ (finalCounters p late last).issueCount.toNat ∧
      (finalCounters p late last).issueCount.toNat ≤
        (finalCounters p late last).cycleCount.toNat := by
  obtain ⟨hcycles, -, i, hpos, hle, hissues⟩ := finalCounters_spec hW hR late last
  have hlt : 42 + p.warps + p.execLatency + (if last then 1 else 0) < 2 ^ 32 := by
    split <;> omega
  have hval : ∀ k, k ≤ 42 + p.warps + p.execLatency + (if last then 1 else 0) →
      (BitVec.ofNat 32 k).toNat = k := fun k hk => by
    rw [BitVec.toNat_ofNat, Nat.mod_eq_of_lt (Nat.lt_of_le_of_lt hk hlt)]
  rw [hcycles, hissues, hval _ (Nat.le_refl _), hval i hle]
  exact ⟨rfl, hpos, hle⟩

end TbDivergencePhase4
end Rtl
end Simt
