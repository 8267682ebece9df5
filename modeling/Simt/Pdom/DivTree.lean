import Simt.Pdom.Paths

/-
Divergence trees and the order in which their paths run.

`Drives m t es` says that the signals `es` drive a controller whose active mask
is `m` through the tree `t`, up to the cycle that ends the last path.  The main
result is `Drives.visits`: the paths of the tree run in order, whatever waits on
the stack below them, and the stack below is what is left at the end.
-/

namespace Simt
namespace Pdom

/-- A leaf is a path that ends, a node a branch. -/
inductive DivTree (w pcW : Nat)
  | leaf
  | node (cond : BitVec w) (pc : BitVec pcW) (thenTree elseTree : DivTree w pcW)

/-- The controller inputs of one cycle. -/
abbrev Signals (w pcW : Nat) := Event (BitVec w) (BitVec pcW)

variable {w pcW n : Nat}

namespace Signals

def Idle (e : Signals w pcW) : Prop := e.fire = false ∧ e.done = false

/-- `branch_fire` alone. -/
def Fires (e : Signals w pcW) (c : BitVec w) (pc : BitVec pcW) : Prop :=
  e.fire = true ∧ e.cond = c ∧ e.pc = pc ∧ e.done = false

/-- `path_done` alone. -/
def Ends (e : Signals w pcW) : Prop := e.fire = false ∧ e.done = true

end Signals

namespace DivTree

/-! ## Leaf masks -/

/-- The masks that arrive at the leaves, in order. -/
def leafMasks (m : BitVec w) : DivTree w pcW → List (BitVec w)
  | leaf => [m]
  | node c _ thenTree elseTree =>
    leafMasks (m &&& c) thenTree ++ leafMasks (m &&& ~~~c) elseTree

def pathMasks (m : BitVec w) (t : DivTree w pcW) : List (BitVec w) :=
  (leafMasks m t).filter (· ≠ 0)

theorem pathMasks_leaf {m : BitVec w} (hm : m ≠ 0) :
    (leaf : DivTree w pcW).pathMasks m = [m] := by
  rw [pathMasks, leafMasks, List.filter_cons_of_pos (by simpa using hm), List.filter_nil]

theorem pathMasks_node (m c : BitVec w) (pc : BitVec pcW) (t e : DivTree w pcW) :
    (node c pc t e).pathMasks m = t.pathMasks (m &&& c) ++ e.pathMasks (m &&& ~~~c) := by
  rw [pathMasks, leafMasks, List.filter_append]
  rfl

theorem pathMasks_zero (t : DivTree w pcW) : t.pathMasks 0 = [] := by
  induction t with
  | leaf => simp [pathMasks, leafMasks]
  | node c pc t e iht ihe =>
    rw [pathMasks_node, show (0 : BitVec w) &&& c = 0 from BitVec.zero_and,
      show (0 : BitVec w) &&& ~~~c = 0 from BitVec.zero_and, iht, ihe, List.append_nil]

theorem pathMasks_ne_nil {m : BitVec w} (hm : m ≠ 0) (t : DivTree w pcW) :
    t.pathMasks m ≠ [] := by
  induction t generalizing m with
  | leaf =>
    rw [pathMasks_leaf hm]
    exact List.cons_ne_nil m []
  | node c pc t e iht ihe =>
    rw [pathMasks_node]
    intro h
    obtain ⟨ht, he⟩ := List.append_eq_nil_iff.mp h
    have htaken : m &&& c = 0 := by
      by_contra hne
      exact iht hne ht
    have hrest : m &&& ~~~c = 0 := by
      by_contra hne
      exact ihe hne he
    exact hm ((and_eq_self hrest).symm.trans htaken)

/-- The members of `l` are non-empty, share no lane and make up `m`. -/
structure Partitions (l : List (BitVec w)) (m : BitVec w) : Prop where
  nonempty : ∀ x ∈ l, x ≠ 0
  disjoint : l.Pairwise fun x y => x &&& y = 0
  covers : l.foldr (· ||| ·) 0 = m

theorem foldr_or_append (l l' : List (BitVec w)) :
    (l ++ l').foldr (· ||| ·) 0 = l.foldr (· ||| ·) 0 ||| l'.foldr (· ||| ·) 0 := by
  induction l with
  | nil => exact (BitVec.zero_or).symm
  | cons x l ih =>
    show x ||| (l ++ l').foldr (· ||| ·) 0 = x ||| l.foldr (· ||| ·) 0 ||| l'.foldr (· ||| ·) 0
    rw [ih, BitVec.or_assoc]

theorem and_of_mem {l : List (BitVec w)} {x : BitVec w} (hx : x ∈ l) :
    x &&& l.foldr (· ||| ·) 0 = x := by
  apply BitVec.eq_of_getLsbD_eq
  intro i _
  rw [BitVec.getLsbD_and]
  cases hb : x.getLsbD i with
  | false => rfl
  | true =>
    have hfold : (l.foldr (· ||| ·) 0).getLsbD i = true := by
      induction l with
      | nil => exact absurd hx List.not_mem_nil
      | cons y l ih =>
        show (y ||| l.foldr (· ||| ·) 0).getLsbD i = true
        rw [BitVec.getLsbD_or]
        rcases List.mem_cons.mp hx with rfl | hmem
        · rw [hb, Bool.true_or]
        · rw [ih hmem, Bool.or_true]
    rw [hfold]
    rfl

/-- Parts of the two halves of a mask share no lane. -/
theorem and_eq_zero_of_halves {m c x y : BitVec w} (hx : x &&& (m &&& c) = x)
    (hy : y &&& (m &&& ~~~c) = y) : x &&& y = 0 := by
  rw [← hx, ← hy]
  apply BitVec.eq_of_getLsbD_eq
  intro i hi
  cases h : c.getLsbD i <;> simp [h]

theorem pathMasks_partitions (m : BitVec w) (t : DivTree w pcW) :
    Partitions (t.pathMasks m) m := by
  have hne : ∀ (m : BitVec w) (t : DivTree w pcW), ∀ x ∈ t.pathMasks m, x ≠ 0 := by
    intro m t x hx
    simpa using (List.mem_filter.mp hx).2
  induction t generalizing m with
  | leaf =>
    refine ⟨hne m _, ?_, ?_⟩
    · by_cases hm : m = 0
      · rw [hm, pathMasks_zero]
        exact List.Pairwise.nil
      · rw [pathMasks_leaf hm]
        exact List.pairwise_singleton _ _
    · by_cases hm : m = 0
      · rw [hm, pathMasks_zero]
        rfl
      · rw [pathMasks_leaf hm]
        exact BitVec.or_zero
  | node c pc t e iht ihe =>
    obtain ⟨-, htd, htc⟩ := iht (m &&& c)
    obtain ⟨-, hed, hec⟩ := ihe (m &&& ~~~c)
    refine ⟨hne m _, ?_, ?_⟩
    · rw [pathMasks_node]
      refine List.pairwise_append.mpr ⟨htd, hed, fun x hx y hy => ?_⟩
      apply and_eq_zero_of_halves (m := m) (c := c)
      · rw [← htc]
        exact and_of_mem hx
      · rw [← hec]
        exact and_of_mem hy
    · rw [pathMasks_node, foldr_or_append, htc, hec, or_halves]

end DivTree

/-! ## Driving a controller through a tree -/

open Signals in
/-- Signals that take the mask `m` through a tree, up to the end of its last
path.  Idle cycles may come before any other one.  The ELSE side of a split
starts with the idle cycle of the pop. -/
inductive Drives : BitVec w → DivTree w pcW → List (Signals w pcW) → Prop
  | wait {m t es} {e : Signals w pcW} (he : Idle e) (hes : Drives m t es) : Drives m t (e :: es)
  | leaf {m} {e : Signals w pcW} (he : Ends e) : Drives m .leaf [e]
  | split {m c pc t f es fs} {e q : Signals w pcW} (he : Fires e c pc) (ht : m &&& c ≠ 0)
      (hf : m &&& ~~~c ≠ 0) (hes : Drives (m &&& c) t es) (hq : Idle q)
      (hfs : Drives (m &&& ~~~c) f fs) : Drives m (.node c pc t f) (e :: (es ++ q :: fs))
  | taken {m c pc t f es} {e : Signals w pcW} (he : Fires e c pc) (hf : m &&& ~~~c = 0)
      (hes : Drives (m &&& c) t es) : Drives m (.node c pc t f) (e :: es)
  | notTaken {m c pc t f fs} {e : Signals w pcW} (he : Fires e c pc) (ht : m &&& c = 0)
      (hfs : Drives (m &&& ~~~c) f fs) : Drives m (.node c pc t f) (e :: fs)

theorem Drives.alone {m : BitVec w} {t : DivTree w pcW} {es : List (Signals w pcW)}
    (h : Drives m t es) : ∀ e ∈ es, ¬ (e.fire = true ∧ e.done = true) := by
  induction h with
  | wait he _ ih =>
    intro x hx
    rcases List.mem_cons.mp hx with rfl | hx
    · simp [he.1]
    · exact ih x hx
  | leaf he =>
    intro x hx
    rw [List.mem_singleton.mp hx]
    simp [he.1]
  | split he _ _ _ hq _ iht ihf =>
    intro x hx
    rcases List.mem_cons.mp hx with rfl | hx
    · simp [he.2.2.2]
    · rcases List.mem_append.mp hx with hx | hx
      · exact iht x hx
      · rcases List.mem_cons.mp hx with rfl | hx
        · simp [hq.1]
        · exact ihf x hx
  | taken he _ _ ih =>
    intro x hx
    rcases List.mem_cons.mp hx with rfl | hx
    · simp [he.2.2.2]
    · exact ih x hx
  | notTaken he _ _ ih =>
    intro x hx
    rcases List.mem_cons.mp hx with rfl | hx
    · simp [he.2.2.2]
    · exact ih x hx

/-- The signals without any spare idle cycle. -/
def script (m : BitVec w) : DivTree w pcW → List (Signals w pcW)
  | .leaf => [⟨false, 0, 0, true⟩]
  | .node c pc t f =>
    ⟨true, c, pc, false⟩ ::
      (if m &&& ~~~c = 0 then script (m &&& c) t
      else if m &&& c = 0 then script (m &&& ~~~c) f
      else script (m &&& c) t ++ ⟨false, 0, 0, false⟩ :: script (m &&& ~~~c) f)

theorem drives_script (m : BitVec w) (t : DivTree w pcW) : Drives m t (script m t) := by
  induction t generalizing m with
  | leaf => exact .leaf ⟨rfl, rfl⟩
  | node c pc t f iht ihf =>
    rw [script]
    by_cases hf : m &&& ~~~c = 0
    · rw [if_pos hf]
      exact .taken ⟨rfl, rfl, rfl, rfl⟩ hf (iht _)
    · rw [if_neg hf]
      by_cases ht : m &&& c = 0
      · rw [if_pos ht]
        exact .notTaken ⟨rfl, rfl, rfl, rfl⟩ ht (ihf _)
      · rw [if_neg ht]
        exact .split ⟨rfl, rfl, rfl, rfl⟩ ht hf (iht _) ⟨rfl, rfl⟩ (ihf _)

/-! ## The abstract controller on a tree -/

/-- Paths as a machine that shows the active set and whether nothing waits. -/
def pathsMachine (cap : Nat) (M PC : Type*) [BooleanAlgebra M] [DecidableEq M] :
    Mealy (Paths M PC) (Event M PC) (M × Bool) where
  init := Paths.start
  next := Paths.step cap
  out p _ := (p.active, p.deferred.isEmpty)

theorem pathsMachine_next (cap : Nat) {M PC : Type*} [BooleanAlgebra M] [DecidableEq M]
    (p : Paths M PC) (e : Event M PC) : (pathsMachine cap M PC).next p e = p.step cap e := rfl

abbrev setsMachine (cap n pcW : Nat) := pathsMachine cap (Finset (Fin n)) (BitVec pcW)

/-- The signals with the condition as a set of lanes. -/
def Signals.onLanes (n : Nat) (e : Signals w pcW) : Event (Finset (Fin n)) (BitVec pcW) where
  fire := e.fire
  cond := lanesOf n e.cond
  pc := e.pc
  done := e.done

/-- The outputs at the ends of paths with masks `ms`: nothing waits at the last
of them if `last`, and something waits at every other. -/
structure Visits (outs : List (Finset (Fin n) × Bool)) (ms : List (BitVec w)) (last : Bool) :
    Prop where
  masks : outs.map Prod.fst = ms.map (lanesOf n)
  empty : outs.map Prod.snd = List.replicate (ms.length - 1) false ++ [last]

theorem Visits.append {outs outs' : List (Finset (Fin n) × Bool)} {ms ms' : List (BitVec w)}
    {last : Bool} (h : Visits outs ms false) (h' : Visits outs' ms' last) (hne : ms ≠ [])
    (hne' : ms' ≠ []) : Visits (outs ++ outs') (ms ++ ms') last := by
  have hpos := List.length_pos_iff.mpr hne
  have hpos' := List.length_pos_iff.mpr hne'
  refine ⟨?_, ?_⟩
  · rw [List.map_append, List.map_append, h.masks, h'.masks]
  · have hlen : (ms ++ ms').length - 1 = (ms.length - 1) + 1 + (ms'.length - 1) := by
      rw [List.length_append]
      omega
    rw [List.map_append, h.empty, h'.empty, hlen, List.replicate_add, List.replicate_succ',
      List.append_assoc (List.replicate (ms.length - 1) false ++ [false])]

section Steps

variable (cap : Nat) {A : Finset (Fin n)} {d : List (Finset (Fin n) × BitVec pcW)}
  {e : Signals w pcW}

theorem step_of_idle (he : e.Idle) :
    (setsMachine cap n pcW).next ⟨A, d, none⟩ (e.onLanes n) = ⟨A, d, none⟩ := by
  rw [pathsMachine_next]
  exact Paths.step_idle (e := e.onLanes n) rfl he.1 he.2

theorem step_of_ends (he : e.Ends) :
    (setsMachine cap n pcW).next ⟨A, d, none⟩ (e.onLanes n) =
      (⟨A, d, none⟩ : Paths _ _).finish := by
  rw [pathsMachine_next]
  exact Paths.step_finish (e := e.onLanes n) rfl he.1 he.2

/-- The cycle after the end of a path takes the top of the stack. -/
theorem step_after_finish (x : Finset (Fin n)) (r : Finset (Fin n) × BitVec pcW) :
    (setsMachine cap n pcW).next (⟨x, r :: d, none⟩ : Paths _ _).finish (e.onLanes n) =
      ⟨r.1, d, none⟩ := by
  rw [pathsMachine_next]
  exact Paths.step_resuming (p := ⟨x, d, some r⟩) rfl

theorem splits_lanesOf (hw : n ≤ w) {m : BitVec w} (hm : Below n m) (c : BitVec w) :
    (⟨lanesOf n m, d, none⟩ : Paths _ _).Splits (lanesOf n c) ↔ m &&& c ≠ 0 ∧ m &&& ~~~c ≠ 0 := by
  rw [Paths.Splits, ← lanesOf_and, ← lanesOf_not_and hw, BitVec.and_comm (~~~c), Ne, Ne,
    lanesOf_eq_bot (hm.and_left c), lanesOf_eq_bot (hm.and_left _)]
  rfl

theorem step_of_fires {m c : BitVec w} {pc : BitVec pcW} (hw : n ≤ w) (hm : Below n m)
    (he : e.Fires c pc) :
    (setsMachine cap n pcW).next ⟨lanesOf n m, d, none⟩ (e.onLanes n) =
      if m &&& c ≠ 0 ∧ m &&& ~~~c ≠ 0 then
        ⟨lanesOf n (m &&& c),
          if d.length < cap then (lanesOf n (m &&& ~~~c), pc) :: d else d, none⟩
      else ⟨lanesOf n m, d, none⟩ := by
  obtain ⟨hf, hc, hpc, hd⟩ := he
  have hcond : (e.onLanes n).cond = lanesOf n c := congrArg (lanesOf n) hc
  have hepc : (e.onLanes n).pc = pc := hpc
  rw [pathsMachine_next, Paths.step_branch (e := e.onLanes n) rfl hf hd, Paths.branch, hcond, hepc]
  by_cases hs : m &&& c ≠ 0 ∧ m &&& ~~~c ≠ 0
  · rw [if_pos hs, if_pos ((splits_lanesOf hw hm c).mpr hs), lanesOf_and,
      BitVec.and_comm m (~~~c), lanesOf_not_and hw]
  · rw [if_neg hs, if_neg (mt (splits_lanesOf hw hm c).mp hs)]

end Steps

/-- A stack with room for all lanes but one takes a tree through its paths in
order and leaves the stack below them as it was. -/
theorem Drives.visits (cap : Nat) (hw : n ≤ w) (hcap : n ≤ cap + 1) {m : BitVec w}
    {t : DivTree w pcW} {es : List (Signals w pcW)} (h : Drives m t es) (hm : m ≠ 0)
    (hb : Below n m) {d : List (Finset (Fin n) × BitVec pcW)}
    (hd : Apart (lanesOf n m :: d.map Prod.fst)) :
    (∃ x, (setsMachine cap n pcW).after ⟨lanesOf n m, d, none⟩ (es.map (Signals.onLanes n)) =
        (⟨x, d, none⟩ : Paths _ _).finish) ∧
      Visits ((setsMachine cap n pcW).outsWhen Event.done ⟨lanesOf n m, d, none⟩
        (es.map (Signals.onLanes n))) (t.pathMasks m) d.isEmpty := by
  -- By induction on the signals, for every stack below.
  induction h generalizing d with
  | @wait m t es e he _ ih =>
    have hstep := step_of_idle cap (A := lanesOf n m) (d := d) he
    rw [List.map_cons, Mealy.after_cons, Mealy.outsWhen_cons_neg _ (i := e.onLanes n) he.2, hstep]
    exact ih hm hb hd
  | @leaf m e he =>
    have hstep := step_of_ends cap (A := lanesOf n m) (d := d) he
    rw [List.map_singleton, Mealy.after_cons, Mealy.outsWhen_cons_pos _ (i := e.onLanes n) he.2,
      hstep, DivTree.pathMasks_leaf hm]
    exact ⟨⟨_, rfl⟩, rfl, rfl⟩
  | @split m c pc t f es fs e q he ht hf _ hq _ iht ihf =>
    have hsplits := (splits_lanesOf (d := d) hw hb c).mpr ⟨ht, hf⟩
    have hand : lanesOf n (m &&& c) = lanesOf n m ⊓ lanesOf n c := lanesOf_and m c
    have hdiff : lanesOf n (m &&& ~~~c) = lanesOf n m \ lanesOf n c := by
      rw [BitVec.and_comm, lanesOf_not_and hw]
    -- The lanes not yet taken bound the stack.
    have hapart : Apart (lanesOf n (m &&& c) :: lanesOf n (m &&& ~~~c) :: d.map Prod.fst) := by
      rw [hand, hdiff]
      exact hd.split hsplits.1 hsplits.2
    have hroom : d.length < cap := by
      have hlen := hapart.length_le
      simp only [List.length_cons, List.length_map, Fintype.card_fin] at hlen
      omega
    have hstep := step_of_fires cap (d := d) hw hb he
    rw [if_pos ⟨ht, hf⟩, if_pos hroom] at hstep
    obtain ⟨⟨x, hx⟩, hvt⟩ := iht ht (hb.and_left c) (d := (lanesOf n (m &&& ~~~c), pc) :: d) hapart
    obtain ⟨hy, hvf⟩ := ihf hf (hb.and_left _) hapart.tail
    have hpop := step_after_finish cap (e := q) (d := d) x (lanesOf n (m &&& ~~~c), pc)
    rw [List.map_cons, List.map_append, List.map_cons, Mealy.after_cons, hstep, Mealy.after_append,
      hx, Mealy.after_cons, hpop, Mealy.outsWhen_cons_neg _ (i := e.onLanes n) he.2.2.2, hstep,
      Mealy.outsWhen_append, hx, Mealy.outsWhen_cons_neg _ (i := q.onLanes n) hq.2, hpop,
      DivTree.pathMasks_node]
    exact ⟨hy, hvt.append hvf (DivTree.pathMasks_ne_nil ht t) (DivTree.pathMasks_ne_nil hf f)⟩
  | @taken m c pc t f es e he hf _ ih =>
    have hall : m &&& c = m := and_eq_self hf
    have hstep := step_of_fires cap (d := d) hw hb he
    rw [if_neg (fun h => h.2 hf)] at hstep
    rw [List.map_cons, Mealy.after_cons, Mealy.outsWhen_cons_neg _ (i := e.onLanes n) he.2.2.2,
      hstep, DivTree.pathMasks_node, hf, DivTree.pathMasks_zero, List.append_nil]
    rw [hall] at ih ⊢
    exact ih hm hb hd
  | @notTaken m c pc t f fs e he ht _ ih =>
    have hall : m &&& ~~~c = m := and_not_eq_self ht
    have hstep := step_of_fires cap (d := d) hw hb he
    rw [if_neg (fun h => h.1 ht)] at hstep
    rw [List.map_cons, Mealy.after_cons, Mealy.outsWhen_cons_neg _ (i := e.onLanes n) he.2.2.2,
      hstep, DivTree.pathMasks_node, ht, DivTree.pathMasks_zero, List.nil_append]
    rw [hall] at ih ⊢
    exact ih hm hb hd

end Pdom
end Simt
