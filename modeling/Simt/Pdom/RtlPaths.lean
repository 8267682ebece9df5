import Simt.Pdom.Paths
import Simt.Rtl.PdomCtrl
import Simt.Rtl.StackList

/-
The RTL controller as paths over lane sets.

`paths` reads the abstract state off the registers: the bits of `curr_mask`, the
valid stack entries, and in `POP_WAIT` the registered pop outputs.  As long as
the fill count is in range a clock edge is one `Paths.edgeStep` with room for
`DEPTH` entries.
-/

namespace Simt
namespace Rtl
namespace PdomCtrl

variable {lanes pcW depth : Nat}

def entryPath (e : BitVec lanes × BitVec pcW) : Finset (Fin lanes) × BitVec pcW :=
  (lanesOf lanes e.1, e.2)

def paths (c : PdomCtrl lanes pcW depth) : Paths (Finset (Fin lanes)) (BitVec pcW) where
  active := lanesOf lanes c.currMask
  deferred := c.uStack.entries.map entryPath
  resuming := match c.state with
    | .run => none
    | .popWait => some (entryPath (c.uStack.popMask, c.uStack.popPc))

def event (inp : PdomIn lanes pcW) : Event (Finset (Fin lanes)) (BitVec pcW) where
  fire := inp.branchFire
  cond := lanesOf lanes inp.branchCond
  pc := inp.reconvergePc
  done := inp.pathDone

/-- The fill count is in range. -/
def Rep (c : PdomCtrl lanes pcW depth) : Prop := c.uStack.count.toNat ≤ depth

theorem resuming_eq_none {c : PdomCtrl lanes pcW depth} :
    c.paths.resuming = none ↔ c.state = .run := by
  cases h : c.state <;> simp [paths, h]

theorem length_deferred {c : PdomCtrl lanes pcW depth} (hc : c.Rep) :
    c.paths.deferred.length = c.uStack.count.toNat := by
  rw [← SimtStack.length_entries hc]
  simp [paths]

theorem empty_iff_deferred {c : PdomCtrl lanes pcW depth} (hc : c.Rep) :
    c.uStack.empty = true ↔ c.paths.deferred = [] := by
  rw [SimtStack.empty_iff_entries hc]
  simp [paths]

theorem full_iff_deferred {c : PdomCtrl lanes pcW depth} (hc : c.Rep) :
    c.uStack.full = true ↔ c.paths.deferred.length = depth := by
  rw [SimtStack.full_iff, length_deferred hc]

theorem deferred_eq_cons {c : PdomCtrl lanes pcW depth} (hc : c.Rep)
    (hne : c.uStack.count.toNat ≠ 0) :
    c.paths.deferred = entryPath c.uStack.top :: c.uStack.below.map entryPath := by
  simp only [paths, SimtStack.entries_eq_cons hne hc, List.map_cons]

/-! ## Masks -/

section Masks

variable (c : PdomCtrl lanes pcW depth) (inp : PdomIn lanes pcW)

theorem below (b : BitVec lanes) : Below lanes b := below_of_le (Nat.le_refl lanes) b

theorem lanesOf_thenMask :
    lanesOf lanes (c.thenMask inp) = c.paths.active ⊓ (event inp).cond := by
  rw [thenMask, lanesOf_and, inf_comm]
  rfl

theorem lanesOf_elseMask :
    lanesOf lanes (c.elseMask inp) = c.paths.active \ (event inp).cond := by
  rw [elseMask, lanesOf_not_and (Nat.le_refl lanes)]
  rfl

theorem thenMask_eq_zero : c.thenMask inp = 0 ↔ c.paths.active ⊓ (event inp).cond = ⊥ := by
  rw [← lanesOf_thenMask]
  exact (lanesOf_eq_bot (below _)).symm

theorem elseMask_eq_zero : c.elseMask inp = 0 ↔ c.paths.active \ (event inp).cond = ⊥ := by
  rw [← lanesOf_elseMask]
  exact (lanesOf_eq_bot (below _)).symm

theorem splits_iff :
    c.paths.Splits (event inp).cond ↔ c.thenMask inp ≠ 0 ∧ c.elseMask inp ≠ 0 := by
  rw [Paths.Splits, Ne, Ne, Ne, Ne, thenMask_eq_zero, elseMask_eq_zero]

/-- The mask a branch leaves is its THEN part on a split and the whole active
mask otherwise. -/
theorem lanesOf_branchMask :
    lanesOf lanes (c.branchMask inp) =
      if c.paths.Splits (event inp).cond then c.paths.active ⊓ (event inp).cond
      else c.paths.active := by
  have hthen := thenMask_eq_zero c inp
  have helse := elseMask_eq_zero c inp
  have hsplit := splits_iff c inp
  by_cases ht : c.thenMask inp = 0
  · have hns : ¬ c.paths.Splits (event inp).cond := fun hsp => (hsplit.mp hsp).1 ht
    rw [if_neg hns]
    by_cases he : c.elseMask inp = 0
    · simp only [branchMask, ht, he, ne_eq, not_true, false_and, and_false, if_false]
      rfl
    · simp only [branchMask, ht, he, ne_eq, not_true, not_false_eq_true, and_self, false_and,
        if_false, if_true]
      rw [lanesOf_elseMask]
      exact sdiff_eq_left.mpr (disjoint_iff.mpr (hthen.mp ht))
  · by_cases he : c.elseMask inp = 0
    · have hns : ¬ c.paths.Splits (event inp).cond := fun hsp => (hsplit.mp hsp).2 he
      rw [if_neg hns]
      simp only [branchMask, ht, he, ne_eq, not_true, not_false_eq_true, and_self, if_true]
      rw [lanesOf_thenMask]
      exact inf_eq_left.mpr (sdiff_eq_bot_iff.mp (helse.mp he))
    · rw [if_pos (hsplit.mpr ⟨ht, he⟩)]
      simp only [branchMask, ht, he, ne_eq, not_false_eq_true, and_false, false_and, and_self,
        if_false, if_true]
      exact lanesOf_thenMask c inp

theorem lanesOf_runMask :
    lanesOf lanes (if inp.branchFire then c.branchMask inp else c.currMask) =
      if (event inp).fire ∧ c.paths.Splits (event inp).cond then
        c.paths.active ⊓ (event inp).cond else c.paths.active := by
  have hfire : (event inp).fire = inp.branchFire := rfl
  rw [hfire]
  cases inp.branchFire
  · simp [paths]
  · simpa using lanesOf_branchMask c inp

end Masks

/-! ## Stack requests -/

section Requests

variable {c : PdomCtrl lanes pcW depth}

theorem stackReq_popWait (hs : c.state = .popWait) (inp : PdomIn lanes pcW) :
    c.stackReq inp = ⟨false, 0, 0, false⟩ := by
  simp [stackReq, hs]

theorem doPop_iff (hs : c.state = .run) (inp : PdomIn lanes pcW) :
    c.uStack.doPop (c.stackReq inp) = true ↔ inp.pathDone = true ∧ c.uStack.empty = false := by
  rw [SimtStack.doPop_iff]
  have he := SimtStack.empty_iff (s := c.uStack)
  have hpop : (c.stackReq inp).pop = (inp.pathDone && !c.uStack.empty) := by
    simp only [stackReq, hs, if_true]
    cases inp.pathDone <;> cases c.uStack.empty <;> simp <;> split <;> rfl
  rw [hpop]
  cases hemp : c.uStack.empty <;> simp_all

theorem doPush_iff (hs : c.state = .run) (inp : PdomIn lanes pcW) :
    c.uStack.doPush (c.stackReq inp) = true ↔
      inp.branchFire = true ∧ (c.thenMask inp ≠ 0 ∧ c.elseMask inp ≠ 0) ∧
        c.uStack.full = false := by
  rw [SimtStack.doPush_iff]
  have hf := SimtStack.full_iff (s := c.uStack)
  have hpush : (c.stackReq inp).push = true ↔
      inp.branchFire = true ∧ c.thenMask inp ≠ 0 ∧ c.elseMask inp ≠ 0 ∧
        c.uStack.full = false := by
    simp only [stackReq, hs, if_true]
    split <;> split <;> simp_all
  rw [hpush]
  cases hful : c.uStack.full <;> simp_all

/-- The stack accepts the ELSE half of a split that finds room. -/
theorem accepted_eq (hs : c.state = .run) (inp : PdomIn lanes pcW) :
    c.uStack.accepted (c.stackReq inp) =
      if inp.branchFire = true ∧ (c.thenMask inp ≠ 0 ∧ c.elseMask inp ≠ 0) ∧
          c.uStack.full = false then
        [(c.elseMask inp, inp.reconvergePc)]
      else [] := by
  by_cases hp : c.uStack.doPush (c.stackReq inp) = true
  · obtain ⟨hfire, hsp, hfull⟩ := (doPush_iff hs inp).mp hp
    have hreq : (c.stackReq inp).pushMask = c.elseMask inp ∧
        (c.stackReq inp).pushPc = inp.reconvergePc := by
      simp only [stackReq, hs, if_true]
      rw [if_pos (show _ ∧ _ ∧ _ ∧ _ from ⟨hfire, hsp.1, hsp.2, hfull⟩)]
      split <;> exact ⟨rfl, rfl⟩
    rw [SimtStack.accepted, if_pos hp, if_pos ⟨hfire, hsp, hfull⟩, hreq.1, hreq.2]
  · rw [SimtStack.accepted, if_neg hp, if_neg (mt (doPush_iff hs inp).mpr hp)]

/-- What the stack accepts is what the event defers. -/
theorem accepted_map (hc : c.Rep) (hs : c.state = .run) (inp : PdomIn lanes pcW) :
    (c.uStack.accepted (c.stackReq inp)).map entryPath = c.paths.pushed depth (event inp) := by
  have hlen := length_deferred hc
  have hroom : c.uStack.full = false ↔ c.paths.deferred.length < depth := by
    rw [← Bool.not_eq_true, full_iff_deferred hc]
    have := hc
    rw [Rep] at this
    omega
  have hcond : (inp.branchFire = true ∧ (c.thenMask inp ≠ 0 ∧ c.elseMask inp ≠ 0) ∧
      c.uStack.full = false) ↔ (event inp).fire = true ∧ c.paths.Splits (event inp).cond ∧
        c.paths.deferred.length < depth := by
    rw [splits_iff, hroom]
    rfl
  rw [accepted_eq hs, Paths.pushed]
  by_cases h : (event inp).fire = true ∧ c.paths.Splits (event inp).cond ∧
      c.paths.deferred.length < depth
  · rw [if_pos (hcond.mpr h), if_pos h, List.map_singleton, entryPath, lanesOf_elseMask]
    rfl
  · rw [if_neg (mt hcond.mp h), if_neg h, List.map_nil]

end Requests

/-! ## A clock edge is a step -/

section Edge

variable {c : PdomCtrl lanes pcW depth} (hc : c.Rep) (inp : PdomIn lanes pcW)

include hc

theorem posedge_popWait (hs : c.state = .popWait) :
    (c.posedge false inp).Rep ∧
      (c.posedge false inp).paths = c.paths.edgeStep depth (event inp) := by
  have hreq := stackReq_popWait hs inp
  have hnopop : c.uStack.doPop (c.stackReq inp) = false := by simp [hreq, SimtStack.doPop]
  have hnopush : c.uStack.accepted (c.stackReq inp) = [] := by
    simp [hreq, SimtStack.accepted, SimtStack.doPush]
  obtain ⟨hcount, -, hent⟩ := SimtStack.posedge_no_pop hc hnopop
  have hr : c.paths.resuming = some (entryPath (c.uStack.popMask, c.uStack.popPc)) := by
    simp [paths, hs]
  rw [Paths.edgeStep_resuming hr]
  simp only [posedge, hs, Bool.false_eq_true, if_false]
  refine ⟨hcount, ?_⟩
  rw [Paths.ext_iff']
  simp [paths, hent, hnopush, entryPath]

theorem run_no_pop (hs : c.state = .run) (hp : ¬ (inp.pathDone = true ∧ c.uStack.empty = false)) :
    (c.uStack.posedge false (c.stackReq inp)).count.toNat ≤ depth ∧
      (c.uStack.posedge false (c.stackReq inp)).entries.map entryPath =
        c.paths.pushed depth (event inp) ++ c.paths.deferred := by
  have hnopop : c.uStack.doPop (c.stackReq inp) = false := by
    rw [← Bool.not_eq_true, doPop_iff hs]
    exact hp
  obtain ⟨hcount, -, hent⟩ := SimtStack.posedge_no_pop hc hnopop
  refine ⟨hcount, ?_⟩
  rw [hent, List.map_append, accepted_map hc hs inp]
  rfl

theorem run_pop (hs : c.state = .run) (hd : inp.pathDone = true) (he : c.uStack.empty = false) :
    (c.uStack.posedge false (c.stackReq inp)).count.toNat ≤ depth ∧
      ((c.uStack.posedge false (c.stackReq inp)).popMask,
        (c.uStack.posedge false (c.stackReq inp)).popPc) = c.uStack.top ∧
      (c.uStack.posedge false (c.stackReq inp)).entries.map entryPath =
        c.paths.pushed depth (event inp) ++ c.uStack.below.map entryPath ∧
      c.paths.deferred = entryPath c.uStack.top :: c.uStack.below.map entryPath := by
  have hpop : c.uStack.doPop (c.stackReq inp) = true := (doPop_iff hs inp).mpr ⟨hd, he⟩
  obtain ⟨hcount, hout, hent⟩ := SimtStack.posedge_pop hc hpop
  refine ⟨hcount, hout, ?_, deferred_eq_cons hc (SimtStack.doPop_iff.mp hpop).2⟩
  rw [hent, List.map_append, accepted_map hc hs inp]

/-- One edge is one step of the paths, with room for `DEPTH` of them. -/
theorem posedge_spec :
    (c.posedge false inp).Rep ∧
      (c.posedge false inp).paths = c.paths.edgeStep depth (event inp) := by
  cases hs : c.state with
  | popWait => exact posedge_popWait hc inp hs
  | run =>
    have hr : c.paths.resuming = none := resuming_eq_none.mpr hs
    have hdone : (event inp).done = inp.pathDone := rfl
    have hmask := lanesOf_runMask c inp
    simp only [posedge, hs, Paths.edgeStep, hr, hdone, Bool.false_eq_true, if_false]
    cases hd : inp.pathDone with
    | false =>
      obtain ⟨hcount, hent⟩ := run_no_pop hc inp hs (by simp [hd])
      simp only [Bool.false_eq_true, if_false]
      refine ⟨hcount, ?_⟩
      rw [Paths.ext_iff']
      exact ⟨hmask, hent, rfl⟩
    | true =>
      simp only [if_true]
      cases hemp : c.uStack.empty with
      | true =>
        obtain ⟨hcount, hent⟩ := run_no_pop hc inp hs (by simp [hemp])
        have hdef : c.paths.deferred = [] := (empty_iff_deferred hc).mp hemp
        rw [hdef, List.append_nil] at hent
        simp only [Bool.true_eq_false, if_false, hdef]
        refine ⟨hcount, ?_⟩
        rw [Paths.ext_iff']
        exact ⟨lanesOf_allOnes (Nat.le_refl lanes), hent, rfl⟩
      | false =>
        obtain ⟨hcount, hout, hent, hdef⟩ := run_pop hc inp hs hd hemp
        simp only [if_true, hdef]
        refine ⟨hcount, ?_⟩
        rw [Paths.ext_iff']
        exact ⟨hmask, hent, congrArg some (congrArg entryPath hout)⟩

end Edge

theorem reset_rep : (reset : PdomCtrl lanes pcW depth).Rep := by
  simp [Rep, reset, SimtStack.reset]

theorem reset_paths : (reset : PdomCtrl lanes pcW depth).paths = Paths.start := by
  rw [Paths.ext_iff']
  refine ⟨lanesOf_allOnes (Nat.le_refl lanes), ?_, rfl⟩
  simp [paths, reset, SimtStack.reset_entries, Paths.start]

end PdomCtrl
end Rtl
end Simt
