import Simt.Sm.LanesKept

/-
A warp that ends its paths comes back together.

While `path_done` of a warp stays high and no branch of it is issued, its
controller takes the deferred paths from the top of the stack, one every other
cycle, and ends in the state a reset leaves.  This holds from every state a run
reaches, also after lanes were lost or put on two paths.
-/

namespace Simt

namespace Paths

variable {M PC : Type*} [BooleanAlgebra M]

/-- The sets of the paths that have not ended, in the order they run. -/
def living (p : Paths M PC) : List M := p.current :: p.deferred.map Prod.fst

variable [DecidableEq M] {cap : Nat} {p : Paths M PC} {e : Event M PC}

theorem edgeStep_ends_nil (hr : p.resuming = none) (hf : e.fire = false) (hd : e.done = true)
    (hq : p.deferred = []) : edgeStep cap p e = start := by
  simp [edgeStep, hr, hf, hd, hq, pushed, start]

theorem edgeStep_ends_cons (hr : p.resuming = none) (hf : e.fire = false) (hd : e.done = true)
    {r : M × PC} {rest : List (M × PC)} (hq : p.deferred = r :: rest) :
    edgeStep cap p e = ⟨p.active, rest, some r⟩ := by
  simp [edgeStep, hr, hf, hd, hq, pushed]

/-- Every other step runs the next path, and one step after the last of them the
whole warp runs. -/
theorem drain_run (cap : Nat) {P : Nat → Paths M PC} {e : Nat → Event M PC} {l : List (M × PC)}
    (hP : ∀ k, P (k + 1) = (P k).edgeStep cap (e k)) (hr : (P 0).resuming = none)
    (hq : (P 0).deferred = l)
    (he : ∀ k, k < 2 * l.length + 1 → (e k).fire = false ∧ (e k).done = true) :
    (∀ j m, (P 0).living[j]? = some m → (P (2 * j)).resuming = none ∧ (P (2 * j)).active = m) ∧
      P (2 * l.length + 1) = start := by
  induction l generalizing P e with
  | nil =>
    have h0 := he 0 (by simp)
    refine ⟨fun j m hm => ?_, ?_⟩
    · rw [living, hq, current_of_running hr] at hm
      cases j with
      | zero => exact ⟨hr, Option.some.inj hm⟩
      | succ j => exact absurd hm (by simp)
    · show P (0 + 1) = start
      rw [hP, edgeStep_ends_nil hr h0.1 h0.2 hq]
  | cons r rest ih =>
    have h0 := he 0 (by simp)
    have h1 : P 1 = ⟨(P 0).active, rest, some r⟩ := by
      show P (0 + 1) = _
      rw [hP, edgeStep_ends_cons hr h0.1 h0.2 hq]
    have h2 : P 2 = ⟨r.1, rest, none⟩ := by
      show P (1 + 1) = _
      rw [hP, edgeStep_resuming (r := r) (by rw [h1]), h1]
    have htail := ih (P := fun k => P (k + 2)) (e := fun k => e (k + 2)) (fun k => hP (k + 2))
      (by rw [h2]) (by rw [h2]) fun k hk => he (k + 2) (by rw [List.length_cons]; omega)
    refine ⟨fun j m hm => ?_, htail.2⟩
    rw [living, hq, current_of_running hr, List.map_cons] at hm
    cases j with
    | zero => exact ⟨hr, Option.some.inj hm⟩
    | succ j =>
      have hliving : (P 2).living = r.1 :: rest.map Prod.fst := by
        rw [h2]
        rfl
      exact htail.1 j m (hliving ▸ hm)

end Paths

namespace Rtl
namespace PdomCtrl

variable {lanes pcW depth : Nat} {c : PdomCtrl lanes pcW depth}

def popping (c : PdomCtrl lanes pcW depth) : Nat := if c.state = .popWait then 1 else 0

/-- The cycles of `path_done` until the stack is empty and the last path ended. -/
def drainTime (c : PdomCtrl lanes pcW depth) : Nat := c.popping + 2 * c.uStack.entries.length + 1

theorem living_paths : c.paths.living = c.livingMasks.map (lanesOf lanes) := by
  have hlist : c.paths.deferred.map Prod.fst =
      (c.uStack.entries.map Prod.fst).map (lanesOf lanes) := by
    simp [paths, entryPath, Function.comp_def]
  rw [Paths.living, hlist, livingMasks, List.map_cons]
  refine congrArg (· :: _) ?_
  cases hs : c.state <;> simp [Paths.current, paths, entryPath, hs]

theorem drainTime_le (hc : c.Rep) : c.drainTime ≤ 2 * depth + 2 := by
  have hlen := length_deferred hc
  rw [Rep, ← hlen, paths, List.length_map] at hc
  unfold drainTime popping
  split <;> omega

theorem eq_of_paths_start (hc : c.Rep) (h : c.paths = Paths.start) :
    c.state = .run ∧ c.currMask = BitVec.allOnes lanes ∧ c.uStack.empty = true := by
  obtain ⟨hact, hdef, hres⟩ := Paths.ext_iff'.mp h
  refine ⟨resuming_eq_none.mp hres, ?_, (empty_iff_deferred hc).mpr hdef⟩
  refine (lanesOf_inj (below _) (below _)).mp ?_
  rw [lanesOf_allOnes (Nat.le_refl lanes)]
  exact hact

end PdomCtrl

namespace MiniSmTop

variable {p : Params}

/-- `path_done` of warp `w` is high and no branch of `w` is issued. -/
def EndsPaths (s : MiniSmTop p) (inp : SmIn p) (w : Nat) : Prop :=
  inp.warpPathDone.getD w false = true ∧
    ¬ (s.issueValid inp = true ∧ inp.warpIsBranch.getD w false = true ∧
      (s.issueWarpId inp).toNat = w)

section Drain

variable (u : Nat → SmIn p) {w : Nat} (hw : w < p.warps) {t : Nat}

include hw

theorem drain_paths (hr : (((machine p).stateAt u t).pdom w).paths.resuming = none) {n : Nat}
    (hn : (((machine p).stateAt u t).pdom w).paths.deferred.length = n)
    (hends : ∀ k, k < 2 * n + 1 → ((machine p).stateAt u (t + k)).EndsPaths (u (t + k)) w) :
    (∀ j m, (((machine p).stateAt u t).pdom w).paths.living[j]? = some m →
        (((machine p).stateAt u (t + 2 * j)).pdom w).paths.resuming = none ∧
          (((machine p).stateAt u (t + 2 * j)).pdom w).paths.active = m) ∧
      (((machine p).stateAt u (t + (2 * n + 1))).pdom w).paths = Paths.start := by
  subst hn
  refine Paths.drain_run p.pdomDepth (P := fun k => (((machine p).stateAt u (t + k)).pdom w).paths)
    (e := fun k => PdomCtrl.event (pdomStream u w (t + k))) ?_ hr rfl ?_
  · exact fun k => paths_succ u (t + k) hw
  · intro k hk
    obtain ⟨hdone, hquiet⟩ := hends k hk
    exact ⟨Bool.eq_false_iff.mpr (mt (branchFire_iff _ _ hw).mp hquiet), hdone⟩

/-- The first cycle that has a path running, from cycle `t` on. -/
theorem paths_popping :
    (((machine p).stateAt u (t + (((machine p).stateAt u t).pdom w).popping)).pdom w).paths =
      ⟨(((machine p).stateAt u t).pdom w).paths.current,
        (((machine p).stateAt u t).pdom w).paths.deferred, none⟩ := by
  cases hs : (((machine p).stateAt u t).pdom w).state with
  | run =>
    have hr := PdomCtrl.resuming_eq_none.mpr hs
    rw [PdomCtrl.popping, if_neg (by rw [hs]; decide), Nat.add_zero, Paths.ext_iff']
    exact ⟨(Paths.current_of_running hr).symm, rfl, hr⟩
  | popWait =>
    have hne := mt PdomCtrl.resuming_eq_none.mp (by rw [hs]; decide)
    obtain ⟨r, hr⟩ := Option.ne_none_iff_exists'.mp hne
    rw [PdomCtrl.popping, if_pos hs, paths_succ u t hw, Paths.edgeStep_resuming hr,
      Paths.current_of_resuming hr]

/-- While `path_done` of warp `w` is high and none of its branches is issued, its
paths run from the top of the stack, one every other cycle, and then all its
lanes run together. -/
theorem drains_in_order
    (hends : ∀ k, k < (((machine p).stateAt u t).pdom w).drainTime →
      ((machine p).stateAt u (t + k)).EndsPaths (u (t + k)) w) :
    let c := ((machine p).stateAt u t).pdom w
    (∀ j m, c.livingMasks[j]? = some m →
        (((machine p).stateAt u (t + (c.popping + 2 * j))).pdom w).state = .run ∧
          ((machine p).stateAt u (t + (c.popping + 2 * j))).warpActiveMask.getD w 0 = m) ∧
      (((machine p).stateAt u (t + c.drainTime)).pdom w).state = .run ∧
      ((machine p).stateAt u (t + c.drainTime)).warpActiveMask.getD w 0 =
        BitVec.allOnes p.lanes ∧
      ((machine p).stateAt u (t + c.drainTime)).warpDiverged.getD w false = false ∧
      c.drainTime ≤ 2 * p.pdomDepth + 2 := by
  intro c
  have hstart := paths_popping u hw (t := t)
  have hlen : (((machine p).stateAt u (t + c.popping)).pdom w).paths.deferred.length =
      c.uStack.entries.length := by
    rw [hstart]
    exact List.length_map _
  have hliving : (((machine p).stateAt u (t + c.popping)).pdom w).paths.living =
      c.livingMasks.map (lanesOf p.lanes) := by
    rw [hstart, ← PdomCtrl.living_paths]
    rfl
  obtain ⟨hmasks, hall⟩ := drain_paths u hw (by rw [hstart]) hlen fun k hk => by
    rw [Nat.add_assoc]
    refine hends _ ?_
    show c.popping + k < c.popping + 2 * c.uStack.entries.length + 1
    omega
  rw [hliving] at hmasks
  have htime : t + c.popping + (2 * c.uStack.entries.length + 1) = t + c.drainTime := by
    rw [PdomCtrl.drainTime]
    omega
  rw [htime] at hall
  obtain ⟨hstate, hmask, hempty⟩ := PdomCtrl.eq_of_paths_start (pdom_rep u _ hw) hall
  refine ⟨fun j m hm => ?_, hstate, ?_, ?_, PdomCtrl.drainTime_le (pdom_rep u t hw)⟩
  · obtain ⟨hr, hact⟩ := hmasks j (lanesOf p.lanes m) (by rw [List.getElem?_map, hm]; rfl)
    rw [Nat.add_assoc] at hr hact
    rw [warpActiveMask_getD _ hw]
    exact ⟨PdomCtrl.resuming_eq_none.mp hr,
      (lanesOf_inj (PdomCtrl.below _) (PdomCtrl.below _)).mp hact⟩
  · rw [warpActiveMask_getD _ hw]
    exact hmask
  · rw [warpDiverged_getD _ hw, hempty]
    rfl

end Drain

/-- Lane 0 runs, then lane 1 from the stack, then both. -/
theorem drains_in_order_small :
    let p : Params := ⟨2, 1, 2, 2, 1, 1, 2⟩
    let u : Nat → SmIn p := fun t => warpZero p (t == 0) 1 (t != 0)
    ((machine p).stateAt u 4).warpActiveMask.getD 0 0 = 3#2 := by
  intro p u
  have htime : (((machine p).stateAt u 1).pdom 0).drainTime = 3 := by decide +kernel
  have hdrain := @drains_in_order p u 0 (by decide) 1 fun k _ => by
    have hlate : (1 + k == 0) = false := beq_false_of_ne (by omega)
    have hu : u (1 + k) = warpZero p false 1 true := by
      show warpZero p (1 + k == 0) 1 (!(1 + k == 0)) = _
      rw [hlate]
      rfl
    rw [hu]
    exact ⟨rfl, fun h => Bool.false_ne_true h.2.1⟩
  have hmask := hdrain.2.2.1
  rw [htime] at hmask
  exact hmask

end MiniSmTop
end Rtl
end Simt
