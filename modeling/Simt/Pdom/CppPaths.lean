import Simt.Cpp.PdomCtrl
import Simt.Lib.LiveStack
import Simt.Pdom.Paths

/-
The C++ controller as paths over lane sets.

`paths` reads the abstract state off the members: the bits of `curr_mask`, the
entries below `sp`, and in `POP_WAIT` the popped entry.  Under the representation
invariant a tick is one `Paths.step` with room for `pdom_depth` entries.
-/

namespace Simt
namespace Cpp
namespace PdomCtrl

variable {cfg : Config}

/-- The entries below `sp`, top first. -/
def stacked (c : PdomCtrl cfg) : List StackEntry := live c.stack c.sp.toNat

def entryPath (cfg : Config) (e : StackEntry) : Finset (Fin cfg.lanes) × BitVec 32 :=
  (lanesOf cfg.lanes e.mask, e.pc)

def paths (c : PdomCtrl cfg) : Paths (Finset (Fin cfg.lanes)) (BitVec 32) where
  active := lanesOf cfg.lanes c.currMask
  deferred := c.stacked.map (entryPath cfg)
  resuming := match c.state with
    | .run => none
    | .popWait => some (entryPath cfg c.popPending)

def event (cfg : Config) (inp : PdomInput) : Event (Finset (Fin cfg.lanes)) (BitVec 32) where
  fire := inp.branchFire
  cond := lanesOf cfg.lanes inp.branchCond
  pc := inp.reconvergePc
  done := inp.pathDone

/-- The stack pointer is in range and every mask in use stays inside the lanes
of the configuration. -/
structure Rep (c : PdomCtrl cfg) : Prop where
  spNonneg : 0 ≤ c.sp
  spLe : c.sp ≤ cfg.pdomDepth
  curr : Below cfg.lanes c.currMask
  entries : ∀ e ∈ c.stacked, Below cfg.lanes e.mask
  pending : c.state = .popWait → Below cfg.lanes c.popPending.mask

/-! ## The lane mask -/

theorem getLsbD_laneMask (h : cfg.lanes ≤ 31) (i : Nat) :
    (laneMask cfg).getLsbD i = decide (i < cfg.lanes) := by
  have hmod : cfg.lanes % 32 = cfg.lanes := Nat.mod_eq_of_lt (by omega)
  have hpow : 2 ^ cfg.lanes < 2 ^ 32 := Nat.pow_lt_pow_right (by omega) (by omega)
  have hpos : 0 < 2 ^ cfg.lanes := Nat.two_pow_pos _
  have hshift : (1#32 <<< cfg.lanes).toNat = 2 ^ cfg.lanes := by
    rw [BitVec.toNat_shiftLeft, Nat.shiftLeft_eq]
    simpa using Nat.mod_eq_of_lt hpow
  have hnat : (laneMask cfg).toNat = 2 ^ cfg.lanes - 1 := by
    rw [laneMask, hmod, BitVec.toNat_sub_of_le, hshift]
    · rfl
    · rw [BitVec.le_def, hshift]
      exact hpos
  rw [BitVec.getLsbD, hnat, Nat.testBit_two_pow_sub_one]

theorem below_laneMask (h : cfg.lanes ≤ 31) : Below cfg.lanes (laneMask cfg) := by
  intro i hi
  rw [getLsbD_laneMask h, decide_eq_false (Nat.not_lt.mpr hi)]

theorem lanesOf_laneMask (h : cfg.lanes ≤ 31) : lanesOf cfg.lanes (laneMask cfg) = ⊤ := by
  ext i
  simp [getLsbD_laneMask h]

theorem below_iff_and_laneMask (h : cfg.lanes ≤ 31) {b : BitVec 32} :
    Below cfg.lanes b ↔ b &&& laneMask cfg = b := by
  constructor
  · intro hb
    apply BitVec.eq_of_getLsbD_eq
    intro i _
    rw [BitVec.getLsbD_and, getLsbD_laneMask h]
    by_cases hi : i < cfg.lanes
    · simp [hi]
    · simp [hb i (Nat.le_of_not_lt hi)]
  · intro hb
    rw [← hb]
    exact (below_laneMask h).and_right b

section Masks

variable (h : cfg.lanes ≤ 31) (c : PdomCtrl cfg) (inp : PdomInput)

include h

theorem below_thenMask : Below cfg.lanes (c.thenMask inp) := (below_laneMask h).and_right _

theorem below_elseMask : Below cfg.lanes (c.elseMask inp) := (below_laneMask h).and_right _

theorem lanesOf_thenMask :
    lanesOf cfg.lanes (c.thenMask inp) = c.paths.active ⊓ (event cfg inp).cond := by
  rw [thenMask, lanesOf_and, lanesOf_and, lanesOf_laneMask h, inf_top_eq, inf_comm]
  rfl

theorem lanesOf_elseMask :
    lanesOf cfg.lanes (c.elseMask inp) = c.paths.active \ (event cfg inp).cond := by
  rw [elseMask, lanesOf_and, lanesOf_not_and (by omega), lanesOf_laneMask h, inf_top_eq]
  rfl

theorem thenMask_eq_zero :
    c.thenMask inp = 0 ↔ c.paths.active ⊓ (event cfg inp).cond = ⊥ := by
  rw [← lanesOf_thenMask h]
  exact (lanesOf_eq_bot (below_thenMask h c inp)).symm

theorem elseMask_eq_zero :
    c.elseMask inp = 0 ↔ c.paths.active \ (event cfg inp).cond = ⊥ := by
  rw [← lanesOf_elseMask h]
  exact (lanesOf_eq_bot (below_elseMask h c inp)).symm

theorem splits_iff :
    c.paths.Splits (event cfg inp).cond ↔ c.thenMask inp ≠ 0 ∧ c.elseMask inp ≠ 0 := by
  rw [Paths.Splits, Ne, Ne, Ne, Ne, thenMask_eq_zero h, elseMask_eq_zero h]

end Masks

/-! ## Outputs -/

theorem tick_fst (c : PdomCtrl cfg) (inp : PdomInput) : (c.tick inp).1 = c.output := by
  unfold tick
  split <;> rfl

theorem length_stacked {c : PdomCtrl cfg} (hc : c.Rep) : (c.stacked.length : Int) = c.sp := by
  have h0 := hc.spNonneg
  have h1 := hc.spLe
  rw [stacked, length_live (by omega)]
  omega

theorem length_deferred {c : PdomCtrl cfg} (hc : c.Rep) :
    (c.paths.deferred.length : Int) = c.sp := by
  rw [← length_stacked hc]
  simp [paths]

theorem stacked_eq_nil {c : PdomCtrl cfg} (hc : c.Rep) : c.stacked = [] ↔ c.sp = 0 := by
  rw [← List.length_eq_zero_iff, ← length_stacked hc]
  omega

theorem deferred_eq_nil {c : PdomCtrl cfg} (hc : c.Rep) : c.paths.deferred = [] ↔ c.sp = 0 := by
  rw [← stacked_eq_nil hc]
  simp [paths]

theorem stackEmpty_iff {c : PdomCtrl cfg} (hc : c.Rep) :
    c.output.stackEmpty = true ↔ c.paths.deferred = [] := by
  rw [deferred_eq_nil hc]
  exact decide_eq_true_iff

theorem stackFull_iff {c : PdomCtrl cfg} (hc : c.Rep) :
    c.output.stackFull = true ↔ c.paths.deferred.length = cfg.pdomDepth := by
  have hlen := length_deferred hc
  have hle := hc.spLe
  simp only [output, decide_eq_true_eq]
  omega

theorem diverged_eq {c : PdomCtrl cfg} (hc : c.Rep) :
    c.output.diverged = !c.output.stackEmpty := by
  have h0 := hc.spNonneg
  rw [Bool.eq_iff_iff]
  simp only [output, decide_eq_true_eq, Bool.not_eq_true', decide_eq_false_iff_not]
  omega

theorem resuming_eq_none {c : PdomCtrl cfg} : c.paths.resuming = none ↔ c.state = .run := by
  cases h : c.state <;> simp [paths, h]

/-! ## A tick is a step -/

theorem stacked_push {c : PdomCtrl cfg} (hc : c.Rep) (h : c.sp < cfg.pdomDepth) (e : StackEntry)
    (m : BitVec 32) :
    ({ c with currMask := m, stack := c.stack.setIfInBounds c.sp.toNat e, sp := c.sp + 1 } :
      PdomCtrl cfg).stacked = e :: c.stacked := by
  have h0 := hc.spNonneg
  have hsp : (c.sp + 1).toNat = c.sp.toNat + 1 := by omega
  rw [stacked, stacked, hsp, live_set_succ _ (by omega)]

theorem stacked_pop {c : PdomCtrl cfg} (hc : c.Rep) (h : 0 < c.sp) :
    c.stacked = c.stack.getD (c.sp - 1).toNat {} :: live c.stack (c.sp - 1).toNat := by
  have h1 := hc.spLe
  have hsp : c.sp.toNat = (c.sp - 1).toNat + 1 := by omega
  rw [stacked, hsp, live_succ _ (by omega)]

/-! ### What the invariant allows -/

section Rep

variable {c : PdomCtrl cfg} (hc : c.Rep)

include hc

theorem Rep.setMask {m : BitVec 32} (hm : Below cfg.lanes m) :
    ({ c with currMask := m } : PdomCtrl cfg).Rep :=
  ⟨hc.spNonneg, hc.spLe, hm, hc.entries, hc.pending⟩

theorem Rep.push (h : c.sp < cfg.pdomDepth) {e : StackEntry} (he : Below cfg.lanes e.mask)
    {m : BitVec 32} (hm : Below cfg.lanes m) :
    ({ c with currMask := m, stack := c.stack.setIfInBounds c.sp.toNat e, sp := c.sp + 1 } :
      PdomCtrl cfg).Rep := by
  have h0 := hc.spNonneg
  refine ⟨?_, ?_, hm, ?_, hc.pending⟩
  · show 0 ≤ c.sp + 1
    omega
  · show c.sp + 1 ≤ _
    omega
  · rw [stacked_push hc h e m]
    exact List.forall_mem_cons.mpr ⟨he, hc.entries⟩

theorem Rep.pop (h : 0 < c.sp) :
    ({ c with
        popPending := c.stack.getD (c.sp - 1).toNat {}
        sp := c.sp - 1
        state := .popWait } : PdomCtrl cfg).Rep := by
  have hle := hc.spLe
  have hpop := stacked_pop hc h
  have hent := hc.entries
  rw [hpop] at hent
  obtain ⟨htop, hrest⟩ := List.forall_mem_cons.mp hent
  refine ⟨?_, ?_, hc.curr, hrest, fun _ => htop⟩
  · show 0 ≤ c.sp - 1
    omega
  · show c.sp - 1 ≤ _
    omega

end Rep

/-! ### The two halves of a `RUN` tick -/

section Tick

variable (h : cfg.lanes ≤ 31) {c : PdomCtrl cfg} (hc : c.Rep) (hs : c.state = .run)
  (inp : PdomInput)

include h hc hs

/-- A split runs the THEN lanes and pushes the ELSE lanes where there is room. -/
theorem takeBranch_split (ht : c.thenMask inp ≠ 0) (he : c.elseMask inp ≠ 0) :
    (c.takeBranch (c.thenMask inp) (c.elseMask inp) inp.reconvergePc).Rep ∧
      (c.takeBranch (c.thenMask inp) (c.elseMask inp) inp.reconvergePc).state = .run ∧
      (c.takeBranch (c.thenMask inp) (c.elseMask inp) inp.reconvergePc).paths =
        c.paths.branch cfg.pdomDepth (event cfg inp).cond (event cfg inp).pc := by
  have hsp : c.paths.Splits (event cfg inp).cond := (splits_iff h c inp).mpr ⟨ht, he⟩
  have hlen := length_deferred hc
  simp only [takeBranch, ht, he, ne_eq, not_false_eq_true, and_false, false_and, and_self,
    if_false, if_true, Paths.branch, if_pos hsp]
  by_cases hroom : c.sp < cfg.pdomDepth
  · have hroom' : c.paths.deferred.length < cfg.pdomDepth := by omega
    have hstk := stacked_push hc hroom ⟨c.elseMask inp, inp.reconvergePc⟩ (c.thenMask inp)
    simp only [if_pos hroom, if_pos hroom']
    refine ⟨hc.push hroom (below_elseMask h c inp) (below_thenMask h c inp), hs, ?_⟩
    rw [Paths.ext_iff']
    refine ⟨lanesOf_thenMask h c inp, ?_, rfl⟩
    simp only [paths, hstk, List.map_cons]
    rw [entryPath, lanesOf_elseMask h]
    rfl
  · have hroom' : ¬ c.paths.deferred.length < cfg.pdomDepth := by omega
    simp only [if_neg hroom, if_neg hroom']
    refine ⟨hc.setMask (below_thenMask h c inp), hs, ?_⟩
    rw [Paths.ext_iff']
    exact ⟨lanesOf_thenMask h c inp, rfl, rfl⟩

/-- `branch_fire` narrows the mask and pushes the ELSE lanes where there is
room. -/
theorem takeBranch_spec :
    (c.takeBranch (c.thenMask inp) (c.elseMask inp) inp.reconvergePc).Rep ∧
      (c.takeBranch (c.thenMask inp) (c.elseMask inp) inp.reconvergePc).state = .run ∧
      (c.takeBranch (c.thenMask inp) (c.elseMask inp) inp.reconvergePc).paths =
        c.paths.branch cfg.pdomDepth (event cfg inp).cond (event cfg inp).pc := by
  have hthen := thenMask_eq_zero h c inp
  have helse := elseMask_eq_zero h c inp
  have hsplit := splits_iff h c inp
  by_cases ht : c.thenMask inp = 0
  · -- No lane takes the branch: the ELSE lanes are the whole active set.
    have hns : ¬ c.paths.Splits (event cfg inp).cond := fun hsp => (hsplit.mp hsp).1 ht
    have hact : c.paths.active \ (event cfg inp).cond = c.paths.active :=
      sdiff_eq_left.mpr (disjoint_iff.mpr (hthen.mp ht))
    by_cases he : c.elseMask inp = 0
    · simp only [takeBranch, ht, he, ne_eq, not_true, false_and, and_false, if_false,
        Paths.branch, if_neg hns]
      exact ⟨hc, hs, trivial⟩
    · simp only [takeBranch, ht, he, ne_eq, not_true, not_false_eq_true, and_self, false_and,
        if_false, if_true, Paths.branch, if_neg hns]
      refine ⟨hc.setMask (below_elseMask h c inp), hs, ?_⟩
      rw [Paths.ext_iff']
      exact ⟨(lanesOf_elseMask h c inp).trans hact, rfl, rfl⟩
  · by_cases he : c.elseMask inp = 0
    · -- Every lane takes it.
      have hns : ¬ c.paths.Splits (event cfg inp).cond := fun hsp => (hsplit.mp hsp).2 he
      have hact : c.paths.active ⊓ (event cfg inp).cond = c.paths.active :=
        inf_eq_left.mpr (sdiff_eq_bot_iff.mp (helse.mp he))
      simp only [takeBranch, ht, he, ne_eq, not_true, not_false_eq_true, and_self, if_true,
        Paths.branch, if_neg hns]
      refine ⟨hc.setMask (below_thenMask h c inp), hs, ?_⟩
      rw [Paths.ext_iff']
      exact ⟨(lanesOf_thenMask h c inp).trans hact, rfl, rfl⟩
    · exact takeBranch_split h hc hs inp ht he

omit inp in
/-- `path_done` pops, or reconverges on an empty stack. -/
theorem finishPath_spec : c.finishPath.Rep ∧ c.finishPath.paths = c.paths.finish := by
  have hnone := resuming_eq_none.mpr hs
  by_cases hsp : 0 < c.sp
  · have hpop := stacked_pop hc hsp
    have hdef : c.paths.deferred = entryPath cfg (c.stack.getD (c.sp - 1).toNat {}) ::
        (live c.stack (c.sp - 1).toNat).map (entryPath cfg) := by
      simp only [paths, hpop, List.map_cons]
    simp only [finishPath, if_pos hsp, Paths.finish, hdef]
    exact ⟨hc.pop hsp, rfl⟩
  · have hdef : c.paths.deferred = [] := (deferred_eq_nil hc).mpr (by
      have := hc.spNonneg
      omega)
    simp only [finishPath, if_neg hsp, Paths.finish, hdef]
    refine ⟨hc.setMask (below_laneMask h), ?_⟩
    rw [Paths.ext_iff']
    exact ⟨lanesOf_laneMask h, hdef, rfl⟩

end Tick

/-- One tick is one step of the paths, with room for `pdom_depth` of them. -/
theorem tick_spec (h : cfg.lanes ≤ 31) {c : PdomCtrl cfg} (hc : c.Rep) (inp : PdomInput) :
    (c.tick inp).2.Rep ∧ (c.tick inp).2.paths = c.paths.step cfg.pdomDepth (event cfg inp) := by
  cases hs : c.state with
  | popWait =>
    have hr : c.paths.resuming = some (entryPath cfg c.popPending) := by simp [paths, hs]
    rw [Paths.step_resuming hr]
    simp only [tick, hs]
    exact ⟨⟨hc.spNonneg, hc.spLe, hc.pending hs, hc.entries, by simp⟩, rfl⟩
  | run =>
    have hr : c.paths.resuming = none := resuming_eq_none.mpr hs
    obtain ⟨hb, hbs, hbp⟩ := takeBranch_spec h hc hs inp
    simp only [tick, hs, Paths.step, hr]
    have hfire : (event cfg inp).fire = inp.branchFire := rfl
    have hdone : (event cfg inp).done = inp.pathDone := rfl
    rw [hfire, hdone]
    cases inp.branchFire <;> cases inp.pathDone <;>
      simp only [if_true, if_false, Bool.false_eq_true]
    · exact ⟨hc, trivial⟩
    · exact finishPath_spec h hc hs
    · exact ⟨hb, hbp⟩
    · rw [← hbp]
      exact finishPath_spec h hb hbs

theorem fresh_rep (h : cfg.lanes ≤ 31) : (fresh cfg).Rep := by
  refine ⟨Int.le_refl 0, Int.natCast_nonneg _, below_laneMask h, ?_, by simp [fresh]⟩
  simp [stacked, fresh]

theorem fresh_paths (h : cfg.lanes ≤ 31) : (fresh cfg).paths = Paths.start := by
  rw [Paths.ext_iff']
  refine ⟨lanesOf_laneMask h, ?_, rfl⟩
  simp [paths, stacked, fresh, Paths.start]

/-! ## The stack pointer, for every lane count -/

/-- The stack pointer is in range. -/
def SpInRange (c : PdomCtrl cfg) : Prop := 0 ≤ c.sp ∧ c.sp ≤ cfg.pdomDepth

theorem takeBranch_spInRange {c : PdomCtrl cfg} (hc : c.SpInRange)
    (thenMask elseMask reconvergePc : BitVec 32) :
    (c.takeBranch thenMask elseMask reconvergePc).SpInRange := by
  obtain ⟨h0, hle⟩ := hc
  unfold takeBranch
  split_ifs with _ _ _ hroom
  · exact ⟨h0, hle⟩
  · exact ⟨h0, hle⟩
  · exact ⟨by show 0 ≤ c.sp + 1; omega, by show c.sp + 1 ≤ _; omega⟩
  · exact ⟨h0, hle⟩
  · exact ⟨h0, hle⟩

theorem finishPath_spInRange {c : PdomCtrl cfg} (hc : c.SpInRange) : c.finishPath.SpInRange := by
  obtain ⟨h0, hle⟩ := hc
  unfold finishPath
  split_ifs with hpos
  · exact ⟨by show 0 ≤ c.sp - 1; omega, by show c.sp - 1 ≤ _; omega⟩
  · exact ⟨h0, hle⟩

theorem tick_popWait {c : PdomCtrl cfg} (hs : c.state = .popWait) (inp : PdomInput) :
    (c.tick inp).2 = { c with currMask := c.popPending.mask, state := .run } := by
  simp only [tick, hs]

theorem tick_spInRange {c : PdomCtrl cfg} (hc : c.SpInRange) (inp : PdomInput) :
    (c.tick inp).2.SpInRange := by
  cases hs : c.state with
  | popWait =>
    rw [tick_popWait hs inp]
    exact hc
  | run =>
    simp only [tick, hs]
    have hb : (if inp.branchFire then
        c.takeBranch (c.thenMask inp) (c.elseMask inp) inp.reconvergePc else c).SpInRange := by
      split_ifs
      · exact takeBranch_spInRange hc _ _ _
      · exact hc
    cases inp.pathDone with
    | false => exact hb
    | true => exact finishPath_spInRange hb

theorem spInRange_of_reachable {c : PdomCtrl cfg} (hc : (machine cfg).Reachable c) :
    c.SpInRange :=
  Mealy.Reachable.invariant (P := SpInRange) ⟨Int.le_refl 0, Int.natCast_nonneg _⟩
    (fun _ inp h => tick_spInRange h inp) hc

end PdomCtrl
end Cpp
end Simt
