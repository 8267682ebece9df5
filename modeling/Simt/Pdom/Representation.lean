import Simt.Pdom.CppPaths

/-
What holds in every reachable state of the C++ controller, and the stack depth
it takes for no lane to be lost.
-/

namespace Simt
namespace Cpp
namespace PdomCtrl

variable {cfg : Config}

/-- The popped mask that waits in `POP_WAIT`. -/
def pendingMasks (c : PdomCtrl cfg) : List (BitVec 32) :=
  match c.state with
  | .run => []
  | .popWait => [c.popPending.mask]

/-- The masks of all paths of the warp: the current one, the pending one and
those below `sp`. -/
def pathMasks (c : PdomCtrl cfg) : List (BitVec 32) :=
  c.currMask :: (c.pendingMasks ++ c.stacked.map StackEntry.mask)

theorem masks_paths (c : PdomCtrl cfg) :
    c.paths.masks = c.pathMasks.map (lanesOf cfg.lanes) := by
  cases hs : c.state <;>
    simp [Paths.masks, pathMasks, pendingMasks, paths, hs, entryPath, Function.comp_def]

theorem Rep.below_pathMasks {c : PdomCtrl cfg} (hc : c.Rep) :
    ∀ m ∈ c.pathMasks, Below cfg.lanes m := by
  intro m hm
  simp only [pathMasks, List.mem_cons, List.mem_append, List.mem_map] at hm
  rcases hm with rfl | hm | ⟨e, he, rfl⟩
  · exact hc.curr
  · cases hs : c.state with
    | run => simp [pendingMasks, hs] at hm
    | popWait =>
      rw [pendingMasks, hs, List.mem_singleton] at hm
      rw [hm]
      exact hc.pending hs
  · exact hc.entries e he

/-- The representation holds and no lane is on two paths. -/
def Valid (c : PdomCtrl cfg) : Prop := c.Rep ∧ c.paths.Sound

section Reachable

variable (h0 : 1 ≤ cfg.lanes) (h31 : cfg.lanes ≤ 31)

include h0 h31

theorem valid_of_reachable {c : PdomCtrl cfg} (hc : (machine cfg).Reachable c) : c.Valid := by
  have : Nonempty (Fin cfg.lanes) := ⟨⟨0, h0⟩⟩
  refine Mealy.Reachable.invariant (P := Valid) ?_ ?_ hc
  · refine ⟨fresh_rep h31, ?_⟩
    show (fresh cfg).paths.Sound
    rw [fresh_paths h31]
    exact Paths.start_sound
  · intro c inp hv
    obtain ⟨hrep, hpaths⟩ := tick_spec h31 hv.1 inp
    refine ⟨hrep, ?_⟩
    show (c.tick inp).2.paths.Sound
    rw [hpaths]
    exact Paths.step_sound hv.2 _

/-- The representation invariant in the words of the code. -/
theorem reachable_representation {c : PdomCtrl cfg} (hc : (machine cfg).Reachable c) :
    (0 ≤ c.sp ∧ c.sp ≤ cfg.pdomDepth) ∧
      (∀ m ∈ c.pathMasks, m ≠ 0 ∧ m &&& laneMask cfg = m) ∧
      c.pathMasks.Pairwise (fun a b => a &&& b = 0) ∧
      ∀ inp, ¬ (c.thenMask inp = 0 ∧ c.elseMask inp = 0) := by
  obtain ⟨hrep, hsound⟩ := valid_of_reachable h0 h31 hc
  have hbelow := hrep.below_pathMasks
  rw [Paths.Sound, masks_paths, apart_map_lanesOf hbelow] at hsound
  refine ⟨⟨hrep.spNonneg, hrep.spLe⟩, ?_, hsound.2, ?_⟩
  · intro m hm
    exact ⟨hsound.1 m hm, (below_iff_and_laneMask h31).mp (hbelow m hm)⟩
  · intro inp h
    obtain ⟨ht, he⟩ := h
    -- Both parts empty would make the current mask empty.
    have hne : c.currMask ≠ 0 := hsound.1 _ List.mem_cons_self
    have hact : c.paths.active = ⊥ := by
      rw [← sup_inf_sdiff c.paths.active (event cfg inp).cond,
        (thenMask_eq_zero h31 c inp).mp ht, (elseMask_eq_zero h31 c inp).mp he, bot_sup_eq]
    exact hne ((lanesOf_eq_bot hrep.curr).mp hact)

end Reachable

/-- After a split the ELSE lanes wait while the THEN lanes run. -/
theorem reachable_representation_split :
    ((machine {}).after (fresh {}) [{ branchFire := true, branchCond := 0xCA }]).pathMasks.Pairwise
      (fun a b => a &&& b = 0) :=
  (@reachable_representation {} (by decide) (by decide) _
    ((machine {}).reachable_after .init [{ branchFire := true, branchCond := 0xCA }])).2.2.1

/-! ## The depth that loses no lane -/

/-- A split in `RUN` finds the stack full. -/
def Overflows (c : PdomCtrl cfg) (inp : PdomInput) : Prop :=
  c.state = .run ∧ inp.branchFire = true ∧ c.thenMask inp ≠ 0 ∧ c.elseMask inp ≠ 0 ∧
    c.output.stackFull = true

/-- Both halves of the split and the full stack are disjoint non-empty sets of
lanes. -/
theorem depth_add_two_le {c : PdomCtrl cfg} (h31 : cfg.lanes ≤ 31) (hv : c.Valid)
    {inp : PdomInput} (ho : c.Overflows inp) : cfg.pdomDepth + 2 ≤ cfg.lanes := by
  obtain ⟨hrep, hsound⟩ := hv
  obtain ⟨hs, -, ht, he, hfull⟩ := ho
  have hsp := (splits_iff h31 c inp).mpr ⟨ht, he⟩
  have hm : c.paths.masks = c.paths.active :: c.paths.deferred.map Prod.fst := by
    simp [Paths.masks, resuming_eq_none.mpr hs]
  rw [Paths.Sound, hm] at hsound
  have hcount := (hsound.split hsp.1 hsp.2).length_le
  rw [List.length_cons, List.length_cons, List.length_map, (stackFull_iff hrep).mp hfull,
    Fintype.card_fin] at hcount
  exact hcount

section OneLane

variable {n : Nat} {PC : Type*} {p : Paths (Finset (Fin n)) PC} {i : Fin n} (hi : i ∈ p.active)

include hi

theorem sdiff_compl_singleton : p.active \ {i}ᶜ = {i} := by
  rw [sdiff_compl]
  exact Finset.inter_singleton_of_mem hi

theorem erase_ne_bot (h2 : 2 ≤ p.active.card) : p.active.erase i ≠ ⊥ := by
  intro hbot
  have hcard := Finset.card_erase_of_mem hi
  rw [hbot, Finset.bot_eq_empty, Finset.card_empty] at hcard
  omega

theorem splits_singleton (h2 : 2 ≤ p.active.card) : p.Splits {i} := by
  constructor
  · show p.active ∩ {i} ≠ ∅
    rw [Finset.inter_singleton_of_mem hi]
    exact Finset.singleton_ne_empty i
  · rw [Finset.sdiff_singleton_eq_erase]
    exact erase_ne_bot hi h2

theorem branch_compl_singleton (h2 : 2 ≤ p.active.card) {cap : Nat}
    (hroom : p.deferred.length < cap) (pc : PC) :
    p.branch cap {i}ᶜ pc = { p with
      active := p.active.erase i
      deferred := ({i}, pc) :: p.deferred } := by
  have hin : p.active ⊓ {i}ᶜ = p.active.erase i := by
    rw [← sdiff_eq]
    exact Finset.sdiff_singleton_eq_erase i _
  have hsplit : p.Splits {i}ᶜ := by
    rw [Paths.Splits, hin, sdiff_compl_singleton hi]
    exact ⟨erase_ne_bot hi h2, Finset.singleton_ne_empty i⟩
  rw [Paths.branch, if_pos hsplit, if_pos hroom, hin, sdiff_compl_singleton hi]

end OneLane

theorem exists_deferred (h31 : cfg.lanes ≤ 31) (k : Nat) (hk : k ≤ cfg.pdomDepth)
    (hl : k < cfg.lanes) : ∃ c, (machine cfg).Reachable c ∧ c.Rep ∧ c.state = .run ∧ c.sp = k ∧
      cfg.lanes ≤ c.paths.active.card + k := by
  induction k with
  | zero =>
    refine ⟨fresh cfg, .init, fresh_rep h31, rfl, rfl, ?_⟩
    simp [fresh_paths h31, Paths.start]
  | succ k ih =>
    obtain ⟨c, hreach, hrep, hs, hsp, hcard⟩ := ih (by omega) (by omega)
    obtain ⟨i, hi⟩ := Finset.card_pos.mp (show 0 < c.paths.active.card by omega)
    let inp : PdomInput := { branchFire := true, branchCond := ~~~BitVec.twoPow 32 i }
    have hcond : (event cfg inp).cond = {i}ᶜ := by
      show lanesOf cfg.lanes (~~~BitVec.twoPow 32 i) = _
      rw [lanesOf_not (by omega), lanesOf_twoPow (by omega)]
    have hlen := length_deferred hrep
    have hr := resuming_eq_none.mpr hs
    obtain ⟨hrep', hpaths⟩ := tick_spec h31 hrep inp
    rw [Paths.step_branch hr rfl rfl, hcond,
      branch_compl_singleton hi (by omega) (show c.paths.deferred.length < _ by omega)] at hpaths
    have hlen' := length_deferred hrep'
    refine ⟨_, hreach.next inp, hrep', ?_, ?_, ?_⟩
    · apply resuming_eq_none.mp
      show (c.tick inp).2.paths.resuming = none
      rw [hpaths]
      exact hr
    · show (c.tick inp).2.sp = _
      rw [← hlen', hpaths, List.length_cons]
      omega
    · show cfg.lanes ≤ (c.tick inp).2.paths.active.card + (k + 1)
      rw [hpaths, Finset.card_erase_of_mem hi]
      omega

/-- Some reachable split meets a full stack exactly when the stack is shallower
than the lanes that can wait. -/
theorem exists_overflow_iff (h0 : 1 ≤ cfg.lanes) (h31 : cfg.lanes ≤ 31) :
    (∃ c inp, (machine cfg).Reachable c ∧ c.Overflows inp) ↔ cfg.pdomDepth < cfg.lanes - 1 := by
  constructor
  · intro h
    obtain ⟨c, inp, hc, ho⟩ := h
    have := depth_add_two_le h31 (valid_of_reachable h0 h31 hc) ho
    omega
  · intro hlt
    obtain ⟨c, hreach, hrep, hs, hsp, hcard⟩ :=
      exists_deferred h31 cfg.pdomDepth (Nat.le_refl _) (by omega)
    obtain ⟨i, hi⟩ := Finset.card_pos.mp (show 0 < c.paths.active.card by omega)
    let inp : PdomInput := { branchFire := true, branchCond := BitVec.twoPow 32 i }
    have hcond : (event cfg inp).cond = {i} := lanesOf_twoPow (by omega) i
    have hsplit : c.paths.Splits (event cfg inp).cond := by
      rw [hcond]
      exact splits_singleton hi (by omega)
    obtain ⟨ht, he⟩ := (splits_iff h31 c inp).mp hsplit
    refine ⟨c, inp, hreach, hs, rfl, ht, he, ?_⟩
    simp [output, hsp]

/-- What an overflowing branch does: its ELSE lanes are on no path any more. -/
theorem else_lost_of_overflow (h31 : cfg.lanes ≤ 31) {c : PdomCtrl cfg} (hv : c.Valid)
    {inp : PdomInput} (ho : c.Overflows inp) (hd : inp.pathDone = false) :
    ∀ m ∈ (c.tick inp).2.pathMasks, c.elseMask inp &&& m = 0 := by
  obtain ⟨hrep, hsound⟩ := hv
  obtain ⟨hs, hf, ht, he, hfull⟩ := ho
  obtain ⟨hrep', hpaths⟩ := tick_spec h31 hrep inp
  have hr := resuming_eq_none.mpr hs
  have hsplit := (splits_iff h31 c inp).mpr ⟨ht, he⟩
  have hroom : ¬ c.paths.deferred.length < cfg.pdomDepth := by
    rw [(stackFull_iff hrep).mp hfull]
    omega
  have hm : c.paths.masks = c.paths.active :: c.paths.deferred.map Prod.fst := by
    simp [Paths.masks, hr]
  have hm' : (c.tick inp).2.paths.masks =
      (c.paths.active ⊓ (event cfg inp).cond) :: c.paths.deferred.map Prod.fst := by
    rw [hpaths, Paths.step_branch hr hf hd, Paths.branch, if_pos hsplit, if_neg hroom]
    simp [Paths.masks, hr]
  rw [Paths.Sound, hm] at hsound
  have hapart := (hsound.split hsplit.1 hsplit.2).perm (List.Perm.swap _ _ _)
  intro m hmem
  apply (disjoint_lanesOf (below_elseMask h31 c inp)).mp
  rw [lanesOf_elseMask h31]
  apply (apart_cons.mp hapart).2.1
  rw [← hm', masks_paths]
  exact List.mem_map_of_mem hmem

/-- Where there is room the ELSE lanes are kept whole, on the stack or as the
pending pop. -/
theorem else_kept_of_room {c : PdomCtrl cfg} (hv : c.Valid)
    {inp : PdomInput} (hs : c.state = .run) (hf : inp.branchFire = true)
    (hsplit : c.thenMask inp ≠ 0 ∧ c.elseMask inp ≠ 0) (hroom : c.output.stackFull = false) :
    (c.tick inp).2.currMask = c.thenMask inp ∧
      c.elseMask inp ∈
        (c.tick inp).2.pendingMasks ++ (c.tick inp).2.stacked.map StackEntry.mask := by
  obtain ⟨hrep, -⟩ := hv
  have hlt : c.sp < cfg.pdomDepth := by
    simpa [output] using hroom
  have h0 := hrep.spNonneg
  have hpush := stacked_push hrep hlt ⟨c.elseMask inp, inp.reconvergePc⟩ (c.thenMask inp)
  have hbranch : c.takeBranch (c.thenMask inp) (c.elseMask inp) inp.reconvergePc =
      { c with
        currMask := c.thenMask inp
        stack := c.stack.setIfInBounds c.sp.toNat ⟨c.elseMask inp, inp.reconvergePc⟩
        sp := c.sp + 1 } := by
    simp only [takeBranch, hsplit.1, hsplit.2, hlt, ne_eq, not_false_eq_true, and_false, false_and,
      and_self, if_false, if_true]
  simp only [tick, hs, hf, if_true, hbranch]
  cases hd : inp.pathDone with
  | false =>
    simp only [Bool.false_eq_true, if_false]
    refine ⟨trivial, List.mem_append_right _ ?_⟩
    rw [hs] at hpush
    rw [hpush]
    exact List.mem_cons_self
  | true =>
    have hpos : 0 < c.sp + 1 := by omega
    simp only [if_true, finishPath, hpos]
    refine ⟨trivial, List.mem_append_left _ ?_⟩
    have hlt' : c.sp.toNat < cfg.pdomDepth := by omega
    simp [pendingMasks, Vector.getD, hlt']

theorem elseMask_of_not_thenMask (h31 : cfg.lanes ≤ 31) {c : PdomCtrl cfg} (hc : c.Rep)
    {inp : PdomInput} {i : Nat} (hin : c.currMask.getLsbD i = true)
    (hout : (c.thenMask inp).getLsbD i = false) : (c.elseMask inp).getLsbD i = true := by
  have hlm : (laneMask cfg).getLsbD i = true := by
    have hb := congrArg (fun b => b.getLsbD i) ((below_iff_and_laneMask h31).mp hc.curr)
    simp only [BitVec.getLsbD_and, hin, Bool.true_and] at hb
    exact hb
  have hlt : i < 32 := BitVec.lt_of_getLsbD hin
  simp only [thenMask, BitVec.getLsbD_and, hin, hlm, Bool.and_true] at hout
  simp only [elseMask, BitVec.getLsbD_and, BitVec.getLsbD_not, hin, hlm, hlt, hout, decide_true,
    Bool.not_false, Bool.and_self]

/-- The sizing rule of the stack, with what happens on each side of it. -/
theorem stack_sizing (h0 : 1 ≤ cfg.lanes) (h31 : cfg.lanes ≤ 31) :
    ((∃ c inp, (machine cfg).Reachable c ∧ c.Overflows inp) ↔ cfg.pdomDepth < cfg.lanes - 1) ∧
      (cfg.pdomDepth < cfg.lanes - 1 → ∃ c inp, (machine cfg).Reachable c ∧ c.Overflows inp ∧
        ∀ m ∈ (c.tick inp).2.pathMasks, c.elseMask inp &&& m = 0) ∧
      (∀ c inp, (machine cfg).Reachable c → c.Overflows inp → inp.pathDone = false →
        ∀ m ∈ (c.tick inp).2.pathMasks, c.elseMask inp &&& m = 0) ∧
      (cfg.lanes - 1 ≤ cfg.pdomDepth → ∀ c inp, (machine cfg).Reachable c → c.state = .run →
        inp.branchFire = true → c.thenMask inp ≠ 0 ∧ c.elseMask inp ≠ 0 → ∀ i,
          c.currMask.getLsbD i = true → (c.tick inp).2.currMask.getLsbD i = false →
            ∃ m ∈ (c.tick inp).2.pendingMasks ++ (c.tick inp).2.stacked.map StackEntry.mask,
              m.getLsbD i = true) := by
  refine ⟨exists_overflow_iff h0 h31, ?_, ?_, ?_⟩
  · intro hdepth
    obtain ⟨c, inp, hc, ho⟩ := (exists_overflow_iff h0 h31).mpr hdepth
    have ho' : c.Overflows { inp with pathDone := false } := ho
    exact ⟨c, _, hc, ho', else_lost_of_overflow h31 (valid_of_reachable h0 h31 hc) ho' rfl⟩
  · intro c inp hc ho hd
    exact else_lost_of_overflow h31 (valid_of_reachable h0 h31 hc) ho hd
  · intro hdepth c inp hc hs hf hsplit i hin hout
    have hv := valid_of_reachable h0 h31 hc
    have hroom : c.output.stackFull = false := by
      rw [← Bool.not_eq_true]
      intro hfull
      have := depth_add_two_le h31 hv ⟨hs, hf, hsplit.1, hsplit.2, hfull⟩
      omega
    obtain ⟨hcurr, hmem⟩ := else_kept_of_room hv hs hf hsplit hroom
    rw [hcurr] at hout
    exact ⟨_, hmem, elseMask_of_not_thenMask h31 hv.1 hin hout⟩

/-- Two lanes need one entry. -/
theorem stack_sizing_two_lanes :
    ¬ ∃ c inp, (machine { lanes := 2, pdomDepth := 1 }).Reachable c ∧ c.Overflows inp := by
  rw [(@stack_sizing { lanes := 2, pdomDepth := 1 } (by decide) (by decide)).1]
  decide

end PdomCtrl
end Cpp
end Simt
