import Simt.Cpp.MiniSM
import Simt.Lib.Registers
import Simt.Lib.RoundRobin

/-
What one `MiniSM::tick` does to the scoreboard, the pipeline, the pointer and
the counters.  The later modules use these lemmas and never unfold `tick`.
-/

namespace Simt
namespace Cpp

variable {cfg : Config}

/-- Every register id that a warp presents is in `[0, regs)`. -/
def InRange (is : WarpInstrs cfg) : Prop :=
  ∀ w m, is.getD w none = some m → m.src0 < cfg.regs ∧ m.src1 < cfg.regs ∧ m.dst < cfg.regs

theorem inRange_one_warp {regs execLatency : Nat} {i : Option InstrMeta}
    (h : ∀ m, i = some m → m.src0 < regs ∧ m.src1 < regs ∧ m.dst < regs) :
    @InRange { warps := 1, regs := regs, execLatency := execLatency } #v[i] := by
  intro w m hm
  by_cases hw : w < 1
  · obtain rfl : w = 0 := Nat.lt_one_iff.mp hw
    exact h m hm
  · rw [getD_of_ge _ (Nat.le_of_not_lt hw)] at hm
    exact absurd hm (by simp)

theorem rawHeavy_getD {w : Nat} (hw : w < cfg.warps) :
    (rawHeavy cfg).getD w none = some { src0 := 0, src1 := 1, dst := 0, hasDst := true } := by
  rw [rawHeavy, getD_of_lt _ hw, Vector.getElem_replicate]

theorem rawHeavy_inRange (hR : 2 ≤ cfg.regs) : InRange (rawHeavy cfg) := by
  intro w m hm
  by_cases hw : w < cfg.warps
  · rw [rawHeavy_getD hw] at hm
    obtain rfl := Option.some.inj hm
    exact ⟨Nat.lt_of_succ_lt hR, hR, Nat.lt_of_succ_lt hR⟩
  · rw [rawHeavy, getD_of_ge _ (Nat.le_of_not_lt hw)] at hm
    exact absurd hm (by simp)

/-- The loop finds the first eligible warp in ring order. -/
theorem WarpScheduler.select_eq (s : WarpScheduler cfg)
    {hasInstr ready canIssue : Vector Bool cfg.warps} {q : Nat → Bool} (hpos : 0 < cfg.warps)
    (hq : ∀ w, w < cfg.warps →
      (hasInstr.getD w false && ready.getD w false && canIssue.getD w false) = q w) :
    s.select hasInstr ready canIssue = RoundRobin.first cfg.warps s.rrPtr q := by
  have hfun : (fun i => hasInstr.getD ((s.rrPtr + i) % cfg.warps) false &&
      ready.getD ((s.rrPtr + i) % cfg.warps) false &&
      canIssue.getD ((s.rrPtr + i) % cfg.warps) false) =
      fun i => q ((s.rrPtr + i) % cfg.warps) := by
    funext i
    exact hq _ (Nat.mod_lt _ hpos)
  rw [select, RoundRobin.first, ← hfun]
  exact findSome?_ite _ _ _

namespace MiniSM

/-! ## Readings of the state -/

/-- The busy bit of a register of a warp. -/
def isBusy (sm : MiniSM cfg) (w r : Nat) : Bool :=
  sm.scoreboard.busy.getD (Scoreboard.idx cfg w r) false

def stage (sm : MiniSM cfg) (i : Nat) : Option WbResult := sm.execPipe.stages.getD i none

/-- The warp presents an instruction whose sources are free. -/
def eligible (sm : MiniSM cfg) (is : WarpInstrs cfg) (w : Nat) : Bool :=
  match is.getD w none with
  | some m => !sm.isBusy w m.src0 && !sm.isBusy w m.src1
  | none => false

/-- The warp presents an instruction with a busy source. -/
def held (sm : MiniSM cfg) (is : WarpInstrs cfg) (w : Nat) : Bool :=
  match is.getD w none with
  | some m => sm.isBusy w m.src0 || sm.isBusy w m.src1
  | none => false

/-- The entry that the tick pushes into the pipeline. -/
def issuedEntry (sm : MiniSM cfg) (is : WarpInstrs cfg) : Option WbResult :=
  (sm.issuedWarp is).map fun w => ⟨w, (issuedInstr is w).dst, (issuedInstr is w).hasDst⟩

/-- Every warp is ready, the pointer is a warp, and the pipeline holds entries
of warps and registers of the configuration. -/
structure Valid (sm : MiniSM cfg) : Prop where
  ready : ∀ w, w < cfg.warps → sm.warpTable.isReady w = true
  rrPtr : sm.scheduler.rrPtr < cfg.warps
  entries : ∀ i e, sm.stage i = some e → e.warpId < cfg.warps ∧ e.dst < cfg.regs

theorem fresh_valid (hW : 1 ≤ cfg.warps) : (fresh cfg).Valid := by
  refine ⟨fun w _ => ?_, hW, fun i e h => ?_⟩
  · simp [fresh, WarpTable.isReady, WarpTable.fresh]
  · simp [fresh, stage, ExecPipe.fresh] at h

theorem isBusy_fresh (w r : Nat) : (fresh cfg).isBusy w r = false := by
  simp [fresh, isBusy, Scoreboard.fresh]

theorem stage_fresh (i : Nat) : (fresh cfg).stage i = none := by
  simp [fresh, stage, ExecPipe.fresh]

/-! ## Flat scoreboard indices -/

theorem idx_lt {w r : Nat} (hw : w < cfg.warps) (hr : r < cfg.regs) :
    Scoreboard.idx cfg w r < cfg.warps * cfg.regs := by
  calc w * cfg.regs + r < w * cfg.regs + cfg.regs := Nat.add_lt_add_left hr _
    _ = (w + 1) * cfg.regs := (Nat.succ_mul w cfg.regs).symm
    _ ≤ cfg.warps * cfg.regs := Nat.mul_le_mul_right _ hw

/-- Two registers never share a busy bit. -/
theorem idx_inj {w r w' r' : Nat} (hr : r < cfg.regs) (hr' : r' < cfg.regs) :
    Scoreboard.idx cfg w r = Scoreboard.idx cfg w' r' ↔ w = w' ∧ r = r' := by
  constructor
  · intro h
    have hdiv : ∀ w r, r < cfg.regs → Scoreboard.idx cfg w r / cfg.regs = w := by
      intro w r hr
      rw [Scoreboard.idx, Nat.mul_comm, Nat.mul_add_div (by omega), Nat.div_eq_of_lt hr,
        Nat.add_zero]
    have hw : w = w' := by rw [← hdiv w r hr, h, hdiv w' r' hr']
    subst hw
    exact ⟨rfl, Nat.add_left_cancel h⟩
  · intro hx
    obtain ⟨rfl, rfl⟩ := hx
    rfl

/-! ## Selection -/

section Select

variable {sm : MiniSM cfg} {is : WarpInstrs cfg}

theorem hasInstr_getD (w : Nat) : (hasInstr is).getD w false = (is.getD w none).isSome :=
  getD_map Option.isSome is w none

theorem ready_getD {w : Nat} (hv : sm.Valid) (hw : w < cfg.warps) :
    sm.ready.getD w false = true := by
  rw [ready, getD_ofFn _ hw]
  exact hv.ready w hw

theorem canIssueVec_getD {w : Nat} (hw : w < cfg.warps) :
    (sm.canIssueVec is).getD w false = sm.eligible is w := by
  rw [canIssueVec, getD_ofFn _ hw]
  rfl

theorem eligible_isSome {w : Nat} (h : sm.eligible is w = true) :
    (is.getD w none).isSome = true := by
  unfold eligible at h
  cases hi : is.getD w none with
  | some m => rfl
  | none =>
    rw [hi] at h
    exact absurd h Bool.false_ne_true

theorem selected_iff {w : Nat} (hv : sm.Valid) (hw : w < cfg.warps) :
    ((hasInstr is).getD w false && sm.ready.getD w false && (sm.canIssueVec is).getD w false) =
      sm.eligible is w := by
  rw [hasInstr_getD, ready_getD hv hw, canIssueVec_getD hw, Bool.and_true]
  cases h : sm.eligible is w with
  | false => rw [Bool.and_false]
  | true => rw [eligible_isSome h, Bool.and_true]

theorem issuedWarp_eq (hv : sm.Valid) :
    sm.issuedWarp is = RoundRobin.first cfg.warps sm.scheduler.rrPtr (sm.eligible is) :=
  sm.scheduler.select_eq (Nat.zero_lt_of_lt hv.rrPtr) fun _ hw => selected_iff hv hw

theorem issuedWarp_lt (hv : sm.Valid) {w : Nat} (h : sm.issuedWarp is = some w) :
    w < cfg.warps := by
  rw [issuedWarp_eq hv] at h
  exact (RoundRobin.first_eq_some hv.rrPtr h).1

theorem issuedInstr_spec (hv : sm.Valid) {w : Nat} (h : sm.issuedWarp is = some w) :
    is.getD w none = some (issuedInstr is w) ∧ sm.isBusy w (issuedInstr is w).src0 = false ∧
      sm.isBusy w (issuedInstr is w).src1 = false := by
  rw [issuedWarp_eq hv] at h
  have hel := (RoundRobin.first_eq_some hv.rrPtr h).2.1
  unfold eligible at hel
  unfold issuedInstr
  cases hi : is.getD w none with
  | none =>
    rw [hi] at hel
    exact absurd hel Bool.false_ne_true
  | some m =>
    rw [hi] at hel
    simpa using hel

theorem issuedEntry_eq_some (hv : sm.Valid) {e : WbResult} :
    sm.issuedEntry is = some e ↔
      sm.issuedWarp is = some e.warpId ∧
        ∃ m, is.getD e.warpId none = some m ∧ m.dst = e.dst ∧ m.hasDst = e.hasDst := by
  rw [issuedEntry, Option.map_eq_some_iff]
  constructor
  · intro h
    obtain ⟨w, hw, rfl⟩ := h
    exact ⟨hw, _, (issuedInstr_spec hv hw).1, rfl, rfl⟩
  · intro h
    obtain ⟨hw, m, hm, hd, hh⟩ := h
    refine ⟨e.warpId, hw, ?_⟩
    rw [issuedInstr, hm, Option.getD_some, hd, hh]

theorem issuedEntry_range (hv : sm.Valid) (hi : InRange is) {e : WbResult}
    (h : sm.issuedEntry is = some e) : e.warpId < cfg.warps ∧ e.dst < cfg.regs := by
  obtain ⟨hw, m, hm, hd, -⟩ := (issuedEntry_eq_some hv).mp h
  refine ⟨issuedWarp_lt hv hw, ?_⟩
  rw [← hd]
  exact (hi _ m hm).2.2

end Select

/-! ## The state after a tick -/

section State

variable {sm : MiniSM cfg} {is : WarpInstrs cfg}

theorem tick_warpTable : (sm.tick is).2.warpTable = sm.warpTable := by
  show (applyIssue _ is (sm.issuedWarp is)).warpTable = _
  cases sm.issuedWarp is <;> rfl

theorem tick_rrPtr :
    (sm.tick is).2.scheduler.rrPtr =
      match sm.issuedWarp is with
      | some w => (w + 1) % cfg.warps
      | none => sm.scheduler.rrPtr := by
  show (applyIssue _ is (sm.issuedWarp is)).scheduler.rrPtr = _
  cases sm.issuedWarp is <;> rfl

theorem tick_execPipe :
    (sm.tick is).2.execPipe =
      match sm.issuedEntry is with
      | some e => sm.execPipe.tick.2.push e
      | none => sm.execPipe.tick.2 := by
  show (applyIssue _ is (sm.issuedWarp is)).execPipe = _
  rw [issuedEntry]
  cases sm.issuedWarp is <;> rfl

theorem tick_scoreboard :
    (sm.tick is).2.scoreboard =
      match sm.issuedEntry is with
      | some e =>
        if e.hasDst then (applyWriteback sm.scoreboard (sm.stage 0)).markBusy e.warpId e.dst
        else applyWriteback sm.scoreboard (sm.stage 0)
      | none => applyWriteback sm.scoreboard (sm.stage 0) := by
  show (applyIssue _ is (sm.issuedWarp is)).scoreboard = _
  rw [issuedEntry]
  cases sm.issuedWarp is <;> rfl

/-- Every entry moves one stage down, and the issued one enters at the top. -/
theorem tick_stage {i : Nat} (hi : i < cfg.execLatency) :
    (sm.tick is).2.stage i =
      if i + 1 = cfg.execLatency then sm.issuedEntry is else sm.stage (i + 1) := by
  have hshift : sm.execPipe.tick.2.stages.getD i none =
      if i + 1 = cfg.execLatency then none else sm.stage (i + 1) := by
    show (Vector.setIfInBounds _ (cfg.execLatency - 1) none).getD i none = _
    by_cases hlast : i + 1 = cfg.execLatency
    · rw [if_pos hlast, show cfg.execLatency - 1 = i by omega, getD_setIfInBounds_self _ hi]
    · rw [if_neg hlast, getD_setIfInBounds_ne _ (by omega), getD_foldl_shift _ _ (by omega),
        if_pos (by omega)]
      rfl
  rw [stage, tick_execPipe]
  cases h : sm.issuedEntry is with
  | none => exact hshift
  | some e =>
    show (Vector.setIfInBounds _ (cfg.execLatency - 1) (some e)).getD i none = _
    by_cases hlast : i + 1 = cfg.execLatency
    · rw [if_pos hlast, show cfg.execLatency - 1 = i by omega, getD_setIfInBounds_self _ hi]
    · rw [if_neg hlast, getD_setIfInBounds_ne _ (by omega), hshift, if_neg hlast]

theorem stage_of_ge {i : Nat} (hi : cfg.execLatency ≤ i) : sm.stage i = none :=
  getD_of_ge _ hi none

theorem lt_of_stage {i : Nat} {e : WbResult} (h : sm.stage i = some e) : i < cfg.execLatency := by
  by_contra hge
  rw [stage_of_ge (Nat.le_of_not_lt hge)] at h
  exact absurd h (by simp)

theorem some_write_inj {w r w' r' : Nat} :
    some (⟨w', r', true⟩ : WbResult) = some ⟨w, r, true⟩ ↔ w' = w ∧ r' = r := by
  simp

theorem getD_applyWriteback {w r : Nat} (hv : sm.Valid) (hw : w < cfg.warps) (hr : r < cfg.regs) :
    (applyWriteback sm.scoreboard (sm.stage 0)).busy.getD (Scoreboard.idx cfg w r) false = true ↔
      sm.isBusy w r = true ∧ sm.stage 0 ≠ some ⟨w, r, true⟩ := by
  cases h : sm.stage 0 with
  | none => simp [applyWriteback, isBusy]
  | some e =>
    obtain ⟨w', r', d⟩ := e
    cases d with
    | false => simp [applyWriteback, isBusy]
    | true =>
      obtain ⟨hw', hr'⟩ := hv.entries 0 _ h
      show (Vector.setIfInBounds _ _ false).getD _ false = true ↔ _
      by_cases heq : w' = w ∧ r' = r
      · obtain ⟨rfl, rfl⟩ := heq
        rw [getD_setIfInBounds_self _ (idx_lt hw hr)]
        simp
      · rw [getD_setIfInBounds_ne _ (mt (idx_inj hr' hr).mp heq)]
        exact (and_iff_left (mt some_write_inj.mp heq)).symm

/-- The busy bit after a tick: set by an issue that writes the register, and
otherwise cleared by the writeback that does. -/
theorem tick_isBusy {w r : Nat} (hv : sm.Valid) (hi : InRange is) (hw : w < cfg.warps)
    (hr : r < cfg.regs) :
    (sm.tick is).2.isBusy w r = true ↔
      sm.issuedEntry is = some ⟨w, r, true⟩ ∨
        (sm.isBusy w r = true ∧ sm.stage 0 ≠ some ⟨w, r, true⟩) := by
  rw [isBusy, tick_scoreboard]
  cases h : sm.issuedEntry is with
  | none => simp [getD_applyWriteback hv hw hr]
  | some e =>
    obtain ⟨w', r', d⟩ := e
    cases d with
    | false => simp [getD_applyWriteback hv hw hr]
    | true =>
      obtain ⟨-, hr'⟩ := issuedEntry_range hv hi h
      show (Vector.setIfInBounds _ _ true).getD _ false = true ↔ _
      by_cases heq : w' = w ∧ r' = r
      · obtain ⟨rfl, rfl⟩ := heq
        rw [getD_setIfInBounds_self _ (idx_lt hw hr)]
        simp
      · rw [getD_setIfInBounds_ne _ (mt (idx_inj hr' hr).mp heq), getD_applyWriteback hv hw hr,
          or_iff_right (mt some_write_inj.mp heq)]

theorem tick_valid (hv : sm.Valid) (hi : InRange is) : (sm.tick is).2.Valid := by
  have hpos : 0 < cfg.warps := Nat.zero_lt_of_lt hv.rrPtr
  refine ⟨fun w hw => ?_, ?_, fun i e h => ?_⟩
  · rw [tick_warpTable]
    exact hv.ready w hw
  · rw [tick_rrPtr]
    cases sm.issuedWarp is with
    | none => exact hv.rrPtr
    | some w => exact Nat.mod_lt _ hpos
  · rw [tick_stage (lt_of_stage h)] at h
    split at h
    · exact issuedEntry_range hv hi h
    · exact hv.entries _ e h

end State

/-! ## Counters -/

section Counters

variable {sm : MiniSM cfg} {is : WarpInstrs cfg}

/-- The loop over the warps finds whether one is held and whether one has
work. -/
theorem classify_eq (hv : sm.Valid) :
    classify (hasInstr is) sm.ready (sm.canIssueVec is) =
      ((List.range cfg.warps).any (sm.held is),
        (List.range cfg.warps).any fun w => (is.getD w none).isSome) := by
  have hstep : ∀ l : List Nat, (∀ w ∈ l, w < cfg.warps) → ∀ a b : Bool,
      l.foldl (fun (x : Bool × Bool) w =>
          if (hasInstr is).getD w false && sm.ready.getD w false then
            (if (sm.canIssueVec is).getD w false then x.1 else true, true)
          else (x.1, x.2)) (a, b) =
        (a || l.any (sm.held is), b || l.any fun w => (is.getD w none).isSome) := by
    intro l
    induction l with
    | nil => simp
    | cons w l ih =>
      intro hl a b
      obtain ⟨hw, hl⟩ := List.forall_mem_cons.mp hl
      rw [List.foldl_cons, hasInstr_getD, ready_getD hv hw, Bool.and_true, canIssueVec_getD hw,
        ih hl, List.any_cons, List.any_cons]
      cases hi : is.getD w none with
      | none => simp [held, hi]
      | some m =>
        cases h0 : sm.isBusy w m.src0 <;> cases h1 : sm.isBusy w m.src1 <;>
          simp [held, eligible, hi, h0, h1]
  exact (hstep _ (fun w hw => List.mem_range.mp hw) false false).trans (by simp)

theorem eligible_of_not_held {w : Nat} (hw : (is.getD w none).isSome = true)
    (h : sm.held is w = false) : sm.eligible is w = true := by
  unfold held at h
  unfold eligible
  cases hi : is.getD w none with
  | none =>
    rw [hi] at hw
    exact absurd hw Bool.false_ne_true
  | some m =>
    rw [hi] at h
    simpa using h

/-- Every cycle without an issue is counted once: as a data stall when some warp
is held, and otherwise no warp has work. -/
theorem tick_counters (hv : sm.Valid) :
    (sm.tick is).2.counters =
      { sm.counters with
        cycles := sm.counters.cycles + 1
        instructions := tally (sm.issuedWarp is).isSome sm.counters.instructions
        stallData := tally ((sm.issuedWarp is).isNone && (List.range cfg.warps).any (sm.held is))
          sm.counters.stallData
        stallNoWarp := tally ((sm.issuedWarp is).isNone &&
          !(List.range cfg.warps).any (sm.held is)) sm.counters.stallNoWarp
        cyclesIssuing := tally (sm.issuedWarp is).isSome sm.counters.cyclesIssuing
        wbCount := tally (sm.stage 0).isSome sm.counters.wbCount } := by
  have hcounters : (sm.tick is).2.counters = countCycle
      (countIssue sm.counters (sm.issuedWarp is)
        (classify (hasInstr is) sm.ready (sm.canIssueVec is)).1
        (classify (hasInstr is) sm.ready (sm.canIssueVec is)).2) (sm.stage 0) := by
    have hc : (applyIssue { sm with
        scoreboard := applyWriteback sm.scoreboard (sm.stage 0)
        execPipe := sm.execPipe.tick.2 } is (sm.issuedWarp is)).counters = sm.counters := by
      cases sm.issuedWarp is <;> rfl
    rw [← hc]
    rfl
  rw [hcounters, classify_eq hv]
  cases hw : sm.issuedWarp is with
  | some w => rfl
  | none =>
    cases hheld : (List.range cfg.warps).any (sm.held is) with
    | true => rfl
    | false =>
      have hnone : (List.range cfg.warps).any (fun w => (is.getD w none).isSome) = false := by
        rw [List.any_eq_false]
        intro w hmem hsome
        have hel := eligible_of_not_held hsome
          (by simpa using List.any_eq_false.mp hheld w hmem)
        rw [issuedWarp_eq hv] at hw
        have hno := (RoundRobin.first_eq_none hv.rrPtr).mp hw w (List.mem_range.mp hmem)
        rw [hel] at hno
        exact absurd hno (by decide)
      rw [hnone]
      rfl

end Counters

end MiniSM
end Cpp
end Simt
