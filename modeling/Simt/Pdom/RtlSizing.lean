import Simt.Pdom.RtlSeparation

/-
The stack depth at which the RTL controller loses no lane.

A lane leaves the paths of its warp for two reasons.  `path_done` ends the path
it runs on, or a split finds the stack full and its ELSE mask goes nowhere.  As
long as the paths are apart the second needs two lanes more than the stack has
entries.  A push over the reconvergence of an empty stack leaves one entry that
overlaps the others, always the lowest one, and so costs one entry of depth and
never more, however often it happens.
-/

namespace Simt

namespace Paths

variable {M PC : Type*}

/-- The set that runs, or the one that comes back in its place. -/
def current (p : Paths M PC) : M := (p.resuming.map Prod.fst).getD p.active

theorem current_of_running {p : Paths M PC} (hr : p.resuming = none) : p.current = p.active := by
  rw [current, hr]
  rfl

theorem current_of_resuming {p : Paths M PC} {r : M × PC} (hr : p.resuming = some r) :
    p.current = r.1 := by
  rw [current, hr]
  rfl

section Above

variable [BooleanAlgebra M]

/-- The sets of the paths that have not ended share no lane, up to the lowest on
the stack. -/
def ApartAboveLast (p : Paths M PC) : Prop :=
  Apart (p.current :: p.deferred.dropLast.map Prod.fst)

theorem start_apartAboveLast [Nontrivial M] : (start : Paths M PC).ApartAboveLast :=
  apart_singleton.mpr top_ne_bot

variable [DecidableEq M] {cap : Nat} {p : Paths M PC}

/-- A split that finds no room for the set it defers. -/
def Overflows (cap : Nat) (p : Paths M PC) (e : Event M PC) : Prop :=
  p.resuming = none ∧ e.fire = true ∧ p.Splits e.cond ∧ cap ≤ p.deferred.length

theorem pushed_dropLast (e : Event M PC) : (pushed cap p e).dropLast = [] := by
  unfold pushed
  split <;> rfl

/-- Whatever is apart from the active set stays apart from both its halves. -/
theorem branch_apart (cap : Nat) {l : List M} (h : Apart (p.active :: l)) (e : Event M PC) :
    Apart ((if e.fire ∧ p.Splits e.cond then p.active ⊓ e.cond else p.active) ::
      ((pushed cap p e).map Prod.fst ++ l)) := by
  by_cases hs : e.fire ∧ p.Splits e.cond
  · rw [if_pos hs]
    by_cases hroom : p.deferred.length < cap
    · have hp : pushed cap p e = [(p.active \ e.cond, e.pc)] := if_pos ⟨hs.1, hs.2, hroom⟩
      rw [hp]
      exact h.split hs.2.1 hs.2.2
    · have hp : pushed cap p e = [] := if_neg fun hx => hroom hx.2.2
      rw [hp]
      exact h.shrink inf_le_left hs.2.1
  · have hp : pushed cap p e = [] := if_neg fun hx => hs ⟨hx.1, hx.2.1⟩
    rw [if_neg hs, hp]
    exact h

/-- Every event keeps the paths above the lowest entry apart.  The only event
that lets two paths overlap widens the active set over an entry that is alone on
the stack. -/
theorem edgeStep_apartAboveLast [Nontrivial M] (h : p.ApartAboveLast) (hne : p.Populated)
    (e : Event M PC) : (edgeStep cap p e).ApartAboveLast := by
  cases hr : p.resuming with
  | some r =>
    rw [edgeStep_resuming hr]
    rw [ApartAboveLast, current_of_resuming hr] at h
    exact h
  | none =>
    rw [ApartAboveLast, current_of_running hr] at h
    have hbranch := branch_apart cap h e
    have hhead := (apart_cons.mp hbranch).1
    cases hd : e.done with
    | false =>
      simp only [edgeStep, hr, hd, Bool.false_eq_true, if_false, ApartAboveLast]
      by_cases hq : p.deferred = []
      · rw [hq, List.append_nil, pushed_dropLast]
        exact apart_singleton.mpr hhead
      · rw [List.dropLast_append_of_ne_nil hq, List.map_append]
        exact hbranch
    | true =>
      cases hq : p.deferred with
      | nil =>
        simp only [edgeStep, hr, hd, hq, if_true, ApartAboveLast, pushed_dropLast]
        exact apart_singleton.mpr top_ne_bot
      | cons r rest =>
        simp only [edgeStep, hr, hd, hq, if_true, ApartAboveLast]
        by_cases hrest : rest = []
        · rw [hrest, List.append_nil, pushed_dropLast]
          refine apart_singleton.mpr ((populated_iff.mp hne).2.2 r ?_)
          rw [hq]
          exact List.mem_cons_self
        · rw [hq, List.dropLast_cons_of_ne_nil hrest] at hbranch
          rw [List.dropLast_append_of_ne_nil hrest, List.map_append]
          exact hbranch.tail.perm List.perm_middle

end Above

/-! ## How many paths there can be -/

section Count

variable {n cap : Nat} {p : Paths (Finset (Fin n)) PC} {e : Event (Finset (Fin n)) PC}

theorem room_of_sound (h : p.Sound) (ho : Overflows cap p e) : cap + 2 ≤ n := by
  obtain ⟨hr, -, hs, hfull⟩ := ho
  have hm : p.masks = p.active :: p.deferred.map Prod.fst := by simp [masks, hr]
  rw [Sound, hm] at h
  have hcount := (h.split hs.1 hs.2).length_le
  rw [List.length_cons, List.length_cons, List.length_map, Fintype.card_fin] at hcount
  omega

theorem room_of_apartAboveLast (h : p.ApartAboveLast) (ho : Overflows cap p e) : cap + 1 ≤ n := by
  obtain ⟨hr, -, hs, hfull⟩ := ho
  rw [ApartAboveLast, current_of_running hr] at h
  have hcount := (h.split hs.1 hs.2).length_le
  rw [List.length_cons, List.length_cons, List.length_map, List.length_dropLast,
    Fintype.card_fin] at hcount
  omega

end Count

/-! ## Where a lane is -/

section Lanes

variable {L : Type*} [Fintype L] [DecidableEq L] {cap : Nat} {p : Paths (Finset L) PC}
  {e : Event (Finset L) PC} {i : L}

/-- Lane `i` is on a path that has not ended. -/
def Lives (p : Paths (Finset L) PC) (i : L) : Prop :=
  i ∈ p.current ∨ ∃ x ∈ p.deferred, i ∈ x.1

/-- A lane of the active set is in what the branch leaves active or in what it
defers. -/
theorem mem_branch (hr : p.resuming = none) (hno : ¬ Overflows cap p e) (hi : i ∈ p.active) :
    i ∈ (if e.fire ∧ p.Splits e.cond then p.active ⊓ e.cond else p.active) ∨
      ∃ x ∈ pushed cap p e, i ∈ x.1 := by
  by_cases hs : e.fire ∧ p.Splits e.cond
  · rw [if_pos hs]
    by_cases hc : i ∈ e.cond
    · exact .inl (Finset.mem_inter.mpr ⟨hi, hc⟩)
    · have hroom : p.deferred.length < cap := by
        by_contra hfull
        exact hno ⟨hr, hs.1, hs.2, Nat.le_of_not_lt hfull⟩
      have hp : pushed cap p e = [(p.active \ e.cond, e.pc)] := if_pos ⟨hs.1, hs.2, hroom⟩
      rw [hp]
      exact .inr ⟨_, List.mem_singleton_self _, Finset.mem_sdiff.mpr ⟨hi, hc⟩⟩
  · rw [if_neg hs]
    exact .inl hi

/-- Without an overflow a lane leaves the paths only when its own path ends. -/
theorem lives_edgeStep (hno : ¬ Overflows cap p e) (hi : p.Lives i) :
    (edgeStep cap p e).Lives i ∨ (p.resuming = none ∧ e.done = true ∧ i ∈ p.active) := by
  cases hr : p.resuming with
  | some r =>
    rw [edgeStep_resuming hr]
    rw [Lives, current_of_resuming hr] at hi
    exact .inl hi
  | none =>
    rw [Lives, current_of_running hr] at hi
    cases hd : e.done with
    | false =>
      left
      simp only [edgeStep, hr, hd, Bool.false_eq_true, if_false, Lives, current, Option.map_none,
        Option.getD_none, List.mem_append]
      rcases hi with hi | ⟨x, hx, hix⟩
      · rcases mem_branch hr hno hi with hin | ⟨x, hx, hix⟩
        · exact .inl hin
        · exact .inr ⟨x, .inl hx, hix⟩
      · exact .inr ⟨x, .inr hx, hix⟩
    | true =>
      rcases hi with hi | ⟨x, hx, hix⟩
      · exact .inr ⟨rfl, rfl, hi⟩
      · left
        cases hq : p.deferred with
        | nil =>
          rw [hq] at hx
          exact absurd hx List.not_mem_nil
        | cons r rest =>
          simp only [edgeStep, hr, hd, hq, if_true, Lives, current, Option.map_some,
            Option.getD_some, List.mem_append]
          rw [hq] at hx
          rcases List.mem_cons.mp hx with rfl | hx
          · exact .inl hix
          · exact .inr ⟨x, .inr hx, hix⟩

end Lanes

/-! ## Splitting off lane by lane -/

section Peel

variable {n cap k : Nat} {p : Paths (Finset (Fin n)) PC} {e : Event (Finset (Fin n)) PC}
  {D : List (Finset (Fin n) × PC)}

/-- Lanes `0` to `k - 1` have been split off one by one on top of `D`. -/
structure Peeled (D : List (Finset (Fin n) × PC)) (k : Nat) (p : Paths (Finset (Fin n)) PC) :
    Prop where
  running : p.resuming = none
  active : ∀ i, i ∈ p.active ↔ k ≤ i.val
  length : p.deferred.length = k + D.length
  deferred : ∀ x ∈ p.deferred, x ∈ D ∨ ∀ i ∈ x.1, i.val < k

/-- A branch that lane `k` alone does not take. -/
structure Peels (k : Nat) (e : Event (Finset (Fin n)) PC) : Prop where
  fire : e.fire = true
  done : e.done = false
  cond : ∀ i, i ∈ e.cond ↔ i.val ≠ k

variable (h : Peeled D k p) (he : Peels k e) (hk : k + 1 < n)

include h he hk

theorem Peeled.splits : p.Splits e.cond := by
  constructor
  · refine Finset.nonempty_iff_ne_empty.mp ⟨⟨k + 1, hk⟩, Finset.mem_inter.mpr ⟨?_, ?_⟩⟩
    · exact (h.active _).mpr (Nat.le_succ k)
    · exact (he.cond _).mpr (Nat.succ_ne_self k)
  · refine Finset.nonempty_iff_ne_empty.mp ⟨⟨k, by omega⟩, Finset.mem_sdiff.mpr ⟨?_, ?_⟩⟩
    · exact (h.active _).mpr (Nat.le_refl k)
    · exact fun hx => (he.cond _).mp hx rfl

theorem Peeled.edgeStep_eq : edgeStep cap p e =
    ⟨p.active ⊓ e.cond, pushed cap p e ++ p.deferred, none⟩ := by
  simp only [edgeStep, h.running, he.done, he.fire, h.splits he hk, and_self, Bool.false_eq_true,
    if_true, if_false]

theorem Peeled.next (hroom : k + D.length < cap) : Peeled D (k + 1) (edgeStep cap p e) := by
  have hp : pushed cap p e = [(p.active \ e.cond, e.pc)] :=
    if_pos ⟨he.fire, h.splits he hk, by rw [h.length]; exact hroom⟩
  rw [h.edgeStep_eq he hk, hp]
  refine ⟨rfl, fun i => ?_, ?_, fun x hx => ?_⟩
  · show i ∈ p.active ∩ e.cond ↔ _
    rw [Finset.mem_inter, h.active, he.cond]
    omega
  · show p.deferred.length + 1 = _
    rw [h.length]
    omega
  · rcases List.mem_cons.mp hx with rfl | hx
    · right
      intro i hi
      have hout := (Finset.mem_sdiff.mp hi).2
      rw [he.cond] at hout
      omega
    · exact (h.deferred x hx).imp_right fun hlt i hi => Nat.lt_succ_of_lt (hlt i hi)

/-- On a full stack the next lane is on no path any more. -/
theorem Peeled.lost (hfull : cap ≤ k + D.length) (hD : ∀ x ∈ D, ∀ i ∈ x.1, k < i.val) :
    ¬ (edgeStep cap p e).Lives ⟨k, by omega⟩ := by
  have hp : pushed cap p e = [] := by
    refine if_neg fun hx => Nat.lt_irrefl cap ?_
    exact Nat.lt_of_le_of_lt hfull (h.length ▸ hx.2.2)
  rw [h.edgeStep_eq he hk, hp]
  rintro (hin | ⟨x, hx, hix⟩)
  · exact (he.cond _).mp (Finset.mem_inter.mp hin).2 rfl
  · rcases h.deferred x hx with hmem | hlt
    · exact Nat.lt_irrefl k (hD x hmem _ hix)
    · exact Nat.lt_irrefl k (hlt _ hix)

end Peel

end Paths

namespace Rtl
namespace PdomCtrl

variable {lanes pcW depth : Nat}

/-! ## The lanes of one controller -/

/-- The mask of the path that runs or is about to, and those on the stack. -/
def livingMasks (c : PdomCtrl lanes pcW depth) : List (BitVec lanes) :=
  (if c.state = .run then c.currMask else c.uStack.popMask) :: c.uStack.entries.map Prod.fst

/-- Lane `i` is on a path that has not ended. -/
def OnPath (c : PdomCtrl lanes pcW depth) (i : Fin lanes) : Prop :=
  ∃ m ∈ c.livingMasks, m.getLsbD i = true

/-- `path_done` ends the path lane `i` runs on. -/
def EndsPathOf (c : PdomCtrl lanes pcW depth) (inp : PdomIn lanes pcW) (i : Fin lanes) : Prop :=
  c.state = .run ∧ inp.pathDone = true ∧ c.currMask.getLsbD i = true

/-- A lane leaves the paths in this cycle only where its own path ends. -/
def KeepsLanes (c : PdomCtrl lanes pcW depth) (inp : PdomIn lanes pcW) : Prop :=
  ∀ i, c.OnPath i → (c.posedge false inp).OnPath i ∨ c.EndsPathOf inp i

theorem onPath_iff {c : PdomCtrl lanes pcW depth} {i : Fin lanes} :
    c.OnPath i ↔ c.paths.Lives i := by
  rw [OnPath, livingMasks, List.exists_mem_cons_iff, Paths.Lives]
  refine or_congr ?_ ?_
  · cases hs : c.state <;> simp [Paths.current, paths, entryPath, hs]
  · show (∃ m ∈ c.uStack.entries.map Prod.fst, m.getLsbD i = true) ↔
      ∃ x ∈ c.uStack.entries.map entryPath, i ∈ x.1
    simp only [List.mem_map, exists_exists_and_eq_and, entryPath, mem_lanesOf]

theorem endsPathOf_iff {c : PdomCtrl lanes pcW depth} {inp : PdomIn lanes pcW} {i : Fin lanes} :
    c.EndsPathOf inp i ↔
      c.paths.resuming = none ∧ (event inp).done = true ∧ i ∈ c.paths.active := by
  rw [resuming_eq_none]
  exact and_congr_right' (and_congr_right' mem_lanesOf.symm)

theorem keepsLanes_of_room {c : PdomCtrl lanes pcW depth} (hc : c.Rep) {inp : PdomIn lanes pcW}
    (hno : ¬ c.paths.Overflows depth (event inp)) : c.KeepsLanes inp := by
  intro i hi
  rw [onPath_iff, (posedge_spec hc inp).2, endsPathOf_iff]
  exact Paths.lives_edgeStep hno (onPath_iff.mp hi)

theorem rep_stateAt (u : Nat → PdomIn lanes pcW) (t : Nat) :
    ((machine lanes pcW depth).stateAt u t).Rep :=
  Mealy.stateAt_invariant (P := Rep) (Q := fun _ => True) reset_rep
    (fun _ inp hc _ => (posedge_spec hc inp).1) (fun _ => trivial) t

theorem paths_stateAt_succ (u : Nat → PdomIn lanes pcW) (t : Nat) :
    ((machine lanes pcW depth).stateAt u (t + 1)).paths =
      ((machine lanes pcW depth).stateAt u t).paths.edgeStep depth (event (u t)) :=
  (posedge_spec (rep_stateAt u t) (u t)).2

/-- The branch that splits off lane `k`, in the cycle the path ends or not. -/
def splitOff (k : Nat) (done : Bool) : PdomIn lanes pcW :=
  ⟨true, ~~~BitVec.twoPow lanes k, 0, done⟩

theorem mem_splitOff_cond {k : Nat} {done : Bool} (i : Fin lanes) :
    i ∈ (event (splitOff k done : PdomIn lanes pcW)).cond ↔ i.val ≠ k := by
  have hi := i.isLt
  show i ∈ lanesOf lanes (~~~BitVec.twoPow lanes k) ↔ _
  rw [mem_lanesOf, BitVec.getLsbD_not, BitVec.getLsbD_twoPow]
  simp only [hi, decide_true, Bool.true_and, Bool.not_eq_true', Bool.and_eq_false_iff,
    decide_eq_false_iff_not]
  omega

theorem peels_splitOff (k : Nat) :
    Paths.Peels k (event (splitOff k false : PdomIn lanes pcW)) :=
  ⟨rfl, rfl, mem_splitOff_cond⟩

section Runs

variable {u : Nat → PdomIn lanes pcW} {b k : Nat} {D : List (Finset (Fin lanes) × BitVec pcW)}
  (hstart : Paths.Peeled D 0 ((machine lanes pcW depth).stateAt u b).paths)
  (hu : ∀ k, u (b + k) = splitOff k false)

include hstart hu

theorem peeled_stateAt (hk : k < lanes) (hroom : k + D.length ≤ depth) :
    Paths.Peeled D k ((machine lanes pcW depth).stateAt u (b + k)).paths := by
  induction k with
  | zero => exact hstart
  | succ k ih =>
    rw [← Nat.add_assoc, paths_stateAt_succ, hu]
    exact (ih (by omega) (by omega)).next (peels_splitOff k) hk (by omega)

/-- Splitting off lane by lane loses the first one that finds the stack full. -/
theorem not_keepsLanes_of_peeled (hk : k + 1 < lanes) (hfull : k + D.length = depth)
    (hD : ∀ x ∈ D, ∀ i ∈ x.1, k < i.val) :
    ¬ ((machine lanes pcW depth).stateAt u (b + k)).KeepsLanes (u (b + k)) := by
  have hpeeled := peeled_stateAt hstart hu (k := k) (by omega) (by omega)
  have hpeels : Paths.Peels k (event (splitOff k false : PdomIn lanes pcW)) := peels_splitOff k
  rw [hu]
  intro hkeeps
  have hon : ((machine lanes pcW depth).stateAt u (b + k)).OnPath ⟨k, by omega⟩ := by
    rw [onPath_iff, Paths.Lives, Paths.current_of_running hpeeled.running]
    exact .inl ((hpeeled.active _).mpr (Nat.le_refl k))
  rcases hkeeps _ hon with hon' | hends
  · rw [onPath_iff, (posedge_spec (rep_stateAt u _) _).2] at hon'
    exact hpeeled.lost hpeels hk (Nat.le_of_eq hfull.symm) hD hon'
  · exact Bool.false_ne_true hends.2.1

end Runs

theorem peeled_reset (u : Nat → PdomIn lanes pcW) :
    Paths.Peeled [] 0 ((machine lanes pcW depth).stateAt u 0).paths := by
  show Paths.Peeled [] 0 (reset : PdomCtrl lanes pcW depth).paths
  rw [reset_paths]
  exact ⟨rfl, fun i => iff_of_true (Finset.mem_univ i) (Nat.zero_le _), rfl,
    fun x hx => absurd hx List.not_mem_nil⟩

/-- The last lane is split off in the cycle the only path ends. -/
theorem peeled_overlap (hl : 2 ≤ lanes) (hd : 1 ≤ depth) {u : Nat → PdomIn lanes pcW}
    (hu : u 0 = splitOff (lanes - 1) true) : ∃ D, D.length = 1 ∧
      (∀ x ∈ D, ∀ i ∈ x.1, i.val = lanes - 1) ∧
        Paths.Peeled D 0 ((machine lanes pcW depth).stateAt u 1).paths := by
  let e : Event (Finset (Fin lanes)) (BitVec pcW) := event (splitOff (lanes - 1) true)
  have hcond : ∀ i, i ∈ e.cond ↔ i.val ≠ lanes - 1 := mem_splitOff_cond
  have hsplit : (Paths.start : Paths (Finset (Fin lanes)) (BitVec pcW)).Splits e.cond := by
    constructor
    · refine Finset.nonempty_iff_ne_empty.mp ⟨⟨0, by omega⟩, Finset.mem_inter.mpr ⟨?_, ?_⟩⟩
      · exact Finset.mem_univ _
      · exact (hcond _).mpr (show 0 ≠ lanes - 1 by omega)
    · refine Finset.nonempty_iff_ne_empty.mp ⟨⟨lanes - 1, by omega⟩, Finset.mem_sdiff.mpr ⟨?_, ?_⟩⟩
      · exact Finset.mem_univ _
      · exact fun hx => (hcond _).mp hx rfl
  have hcol : Paths.Collides depth Paths.start e := ⟨rfl, rfl, rfl, hsplit, hd⟩
  have hpaths : ((machine lanes pcW depth).stateAt u 1).paths =
      ⟨⊤, [(⊤ \ e.cond, e.pc)], none⟩ := by
    rw [paths_stateAt_succ, hu, Mealy.stateAt_zero]
    show (reset : PdomCtrl lanes pcW depth).paths.edgeStep depth e = _
    rw [reset_paths, Paths.edgeStep_of_collides_nil hcol rfl]
    rfl
  refine ⟨[(⊤ \ e.cond, e.pc)], rfl, fun x hx i hi => ?_, ?_⟩
  · rw [List.mem_singleton.mp hx] at hi
    exact not_not.mp (mt (hcond i).mpr (Finset.mem_sdiff.mp hi).2)
  · rw [hpaths]
    exact ⟨rfl, fun i => iff_of_true (Finset.mem_univ i) (Nat.zero_le _), rfl,
      fun x hx => .inl hx⟩

section Depth

variable (hl : 1 ≤ lanes) (hd : 1 ≤ depth) (u : Nat → PdomIn lanes pcW)

/-- A stack two entries short of the lanes loses one without any overlap. -/
theorem not_keepsLanes_of_shallow (h : depth + 1 < lanes)
    (hu : ∀ t, u t = splitOff t false) :
    ¬ ((machine lanes pcW depth).stateAt u depth).KeepsLanes (u depth) := by
  have hu0 : ∀ k, u (0 + k) = splitOff k false := fun k => by rw [Nat.zero_add, hu]
  have hlose := not_keepsLanes_of_peeled (k := depth) (peeled_reset u) hu0 h (Nat.add_zero depth)
    fun x hx => absurd hx List.not_mem_nil
  rwa [Nat.zero_add] at hlose

include hd

/-- A stack one entry short loses a lane after one overlap. -/
theorem not_keepsLanes_of_overlap (h : depth + 1 = lanes) (h0 : u 0 = splitOff (lanes - 1) true)
    (hu : ∀ k, u (1 + k) = splitOff k false) :
    ¬ ((machine lanes pcW depth).stateAt u depth).KeepsLanes (u depth) := by
  obtain ⟨D, hlen, hD, hstart⟩ := peeled_overlap (by omega) hd h0
  have hlose := not_keepsLanes_of_peeled (k := depth - 1) hstart hu (by omega) (by omega) ?_
  · rwa [Nat.add_sub_cancel' hd] at hlose
  · intro x hx i hi
    have := hD x hx i hi
    omega

include hl

theorem sound_stateAt {u : Nat → PdomIn lanes pcW} {t : Nat}
    (hok : ∀ s, s < t → ¬ ((machine lanes pcW depth).stateAt u s).ReconvergesOverPush (u s)) :
    ((machine lanes pcW depth).stateAt u t).paths.Sound := by
  have : Nonempty (Fin lanes) := ⟨⟨0, hl⟩⟩
  induction t with
  | zero =>
    show (reset : PdomCtrl lanes pcW depth).paths.Sound
    rw [reset_paths]
    exact Paths.start_sound
  | succ t ih =>
    rw [paths_stateAt_succ]
    refine Paths.edgeStep_sound (ih fun s hs => hok s (Nat.lt_succ_of_lt hs)) fun h => ?_
    exact hok t (Nat.lt_succ_self t) ((reconvergesOverPush_iff hd (rep_stateAt u t) (u t)).mpr h)

omit hd in
theorem apartAboveLast_stateAt (t : Nat) :
    ((machine lanes pcW depth).stateAt u t).paths.ApartAboveLast ∧
      ((machine lanes pcW depth).stateAt u t).paths.Populated := by
  have : Nonempty (Fin lanes) := ⟨⟨0, hl⟩⟩
  induction t with
  | zero =>
    show (reset : PdomCtrl lanes pcW depth).paths.ApartAboveLast ∧
      (reset : PdomCtrl lanes pcW depth).paths.Populated
    rw [reset_paths]
    exact ⟨Paths.start_apartAboveLast, Paths.start_populated⟩
  | succ t ih =>
    rw [paths_stateAt_succ]
    exact ⟨Paths.edgeStep_apartAboveLast ih.1 ih.2 _, Paths.edgeStep_populated ih.2 _⟩

omit u in
/-- Sizing the stack.  Runs that never push over a reconvergence lose no lane
exactly from `LANES - 1` entries on, and arbitrary runs need one entry more. -/
theorem lanes_kept_iff (pcW : Nat) :
    ((∀ (u : Nat → PdomIn lanes pcW) (t : Nat),
        (∀ s, s < t → ¬ ((machine lanes pcW depth).stateAt u s).ReconvergesOverPush (u s)) →
          ((machine lanes pcW depth).stateAt u t).KeepsLanes (u t)) ↔ lanes - 1 ≤ depth) ∧
      ((∀ (u : Nat → PdomIn lanes pcW) (t : Nat),
        ((machine lanes pcW depth).stateAt u t).KeepsLanes (u t)) ↔ lanes ≤ depth) := by
  refine ⟨⟨fun hall => ?_, fun hsize u t hok => ?_⟩, fun hall => ?_, fun hsize u t => ?_⟩
  · by_contra hlt
    refine not_keepsLanes_of_shallow (splitOff · false) (by omega) (fun _ => rfl) (hall _ _ ?_)
    intro s _ hrec
    exact Bool.false_ne_true hrec.2.2.1
  · refine keepsLanes_of_room (rep_stateAt u t) fun ho => ?_
    have := Paths.room_of_sound (sound_stateAt hl hd hok) ho
    omega
  · by_contra hlt
    by_cases hshallow : depth + 1 < lanes
    · exact not_keepsLanes_of_shallow (splitOff · false) hshallow (fun _ => rfl) (hall _ _)
    · let u : Nat → PdomIn lanes pcW := fun t =>
        if t = 0 then splitOff (lanes - 1) true else splitOff (t - 1) false
      refine not_keepsLanes_of_overlap hd u (by omega) rfl (fun k => ?_) (hall _ _)
      show (if 1 + k = 0 then _ else splitOff (1 + k - 1) false) = _
      rw [if_neg (by omega), Nat.add_sub_cancel_left]
  · refine keepsLanes_of_room (rep_stateAt u t) fun ho => ?_
    have := Paths.room_of_apartAboveLast (apartAboveLast_stateAt hl u t).1 ho
    omega

end Depth

/-- Eight entries are enough for eight lanes that are split off one by one over a
reconvergence. -/
theorem lanes_kept_iff_package :
    ((machine 8 16 8).stateAt (fun t => splitOff t (t == 0)) 8).KeepsLanes (splitOff 8 false) :=
  (@lanes_kept_iff 8 8 (by decide) (by decide) 16).2.mpr (Nat.le_refl 8)
    (fun t => splitOff t (t == 0)) 8

end PdomCtrl
end Rtl
end Simt
