import Simt.Lib.LaneSet
import Simt.Lib.Mealy
import Mathlib.Data.List.Perm.Lattice

/-
Divergence control over sets of lanes.

A warp follows one path at a time: the active set runs and the deferred sets
wait, latest first.  A branch splits the active set and defers the part that
does not take it, the end of a path resumes the latest deferred set one step
later.  The sets come from any Boolean algebra.

Two step functions differ in one case only, a split in the same step as the end
of a path.  `step` defers first and then resumes, so the set just deferred comes
back.  `edgeStep` decides both from the stack before the step, so the earlier
top comes back, and on an empty stack the active set becomes the whole warp
while the other half of the split is deferred.
-/

namespace Simt

structure Paths (M PC : Type*) where
  active : M
  deferred : List (M × PC)
  resuming : Option (M × PC)

/-- What happens to the warp in one step. -/
structure Event (M PC : Type*) where
  fire : Bool
  cond : M
  pc : PC
  done : Bool

def Event.mapPc {M PC PC' : Type*} (f : PC → PC') (e : Event M PC) : Event M PC' :=
  ⟨e.fire, e.cond, f e.pc, e.done⟩

namespace Paths

variable {M PC : Type*}

theorem ext_iff' {p q : Paths M PC} :
    p = q ↔ p.active = q.active ∧ p.deferred = q.deferred ∧ p.resuming = q.resuming := by
  cases p
  cases q
  simp

/-- The sets of all paths of the warp: the active one, the one coming back and
the ones that wait. -/
def masks (p : Paths M PC) : List M :=
  p.active :: (p.resuming.toList ++ p.deferred).map Prod.fst

section Steps

variable [BooleanAlgebra M]

def start : Paths M PC := ⟨⊤, [], none⟩

/-- Both sides of a branch on `c` have active lanes. -/
def Splits (p : Paths M PC) (c : M) : Prop := p.active ⊓ c ≠ ⊥ ∧ p.active \ c ≠ ⊥

/-- The end of the active path. -/
def finish (p : Paths M PC) : Paths M PC :=
  match p.deferred with
  | [] => { p with active := ⊤ }
  | e :: rest => { p with deferred := rest, resuming := some e }

variable [DecidableEq M]

instance (p : Paths M PC) (c : M) : Decidable (p.Splits c) := inferInstanceAs (Decidable (_ ∧ _))

/-- A branch on `c` with room for `cap` deferred sets. -/
def branch (cap : Nat) (p : Paths M PC) (c : M) (pc : PC) : Paths M PC :=
  if p.Splits c then
    { p with
      active := p.active ⊓ c
      deferred := if p.deferred.length < cap then (p.active \ c, pc) :: p.deferred else p.deferred }
  else p

def step (cap : Nat) (p : Paths M PC) (e : Event M PC) : Paths M PC :=
  match p.resuming with
  | some r => { p with active := r.1, resuming := none }
  | none =>
    let q := if e.fire then branch cap p e.cond e.pc else p
    if e.done then q.finish else q

/-- The set an event defers, decided before the step. -/
def pushed (cap : Nat) (p : Paths M PC) (e : Event M PC) : List (M × PC) :=
  if e.fire ∧ p.Splits e.cond ∧ p.deferred.length < cap then [(p.active \ e.cond, e.pc)] else []

def edgeStep (cap : Nat) (p : Paths M PC) (e : Event M PC) : Paths M PC :=
  match p.resuming with
  | some r => { p with active := r.1, resuming := none }
  | none =>
    let active := if e.fire ∧ p.Splits e.cond then p.active ⊓ e.cond else p.active
    if e.done then
      match p.deferred with
      | [] => ⟨⊤, pushed cap p e, none⟩
      | r :: rest => ⟨active, pushed cap p e ++ rest, some r⟩
    else ⟨active, pushed cap p e ++ p.deferred, none⟩

/-- A set is deferred in the same step as the active path ends. -/
def Collides (cap : Nat) (p : Paths M PC) (e : Event M PC) : Prop :=
  p.resuming = none ∧ e.fire ∧ e.done ∧ p.Splits e.cond ∧ p.deferred.length < cap

end Steps

/-! ## What each step does -/

section StepLemmas

variable [BooleanAlgebra M] [DecidableEq M] {cap : Nat} {p : Paths M PC} {e : Event M PC}

theorem step_resuming {r : M × PC} (h : p.resuming = some r) :
    step cap p e = ⟨r.1, p.deferred, none⟩ := by
  simp only [step, h]

theorem edgeStep_resuming {r : M × PC} (h : p.resuming = some r) :
    edgeStep cap p e = ⟨r.1, p.deferred, none⟩ := by
  simp only [edgeStep, h]

theorem step_idle (hr : p.resuming = none) (hf : e.fire = false) (hd : e.done = false) :
    step cap p e = p := by
  simp only [step, hr, hf, hd, Bool.false_eq_true, if_false]

theorem step_branch (hr : p.resuming = none) (hf : e.fire = true) (hd : e.done = false) :
    step cap p e = branch cap p e.cond e.pc := by
  simp only [step, hr, hf, hd, Bool.false_eq_true, if_true, if_false]

theorem step_finish (hr : p.resuming = none) (hf : e.fire = false) (hd : e.done = true) :
    step cap p e = p.finish := by
  simp only [step, hr, hf, hd, Bool.false_eq_true, if_true, if_false]

theorem branch_resuming (c : M) (pc : PC) : (branch cap p c pc).resuming = p.resuming := by
  unfold branch
  split <;> rfl

theorem branch_eq (h : p.resuming = none) (hf : e.fire = true) :
    branch cap p e.cond e.pc =
      ⟨if p.Splits e.cond then p.active ⊓ e.cond else p.active,
        pushed cap p e ++ p.deferred, none⟩ := by
  by_cases hs : p.Splits e.cond
  · by_cases hl : p.deferred.length < cap <;> simp [branch, pushed, hs, hl, hf, h]
  · cases p
    simp_all [branch, pushed]

/-- The two steps agree on every event that does not collide. -/
theorem edgeStep_eq_step (h : ¬ Collides cap p e) : edgeStep cap p e = step cap p e := by
  cases hr : p.resuming with
  | some r => rw [step_resuming hr, edgeStep_resuming hr]
  | none =>
    cases hf : e.fire with
    | false =>
      obtain ⟨a, d, r⟩ := p
      cases hd : e.done <;> cases d <;> simp_all [step, edgeStep, pushed, finish]
    | true =>
      cases hd : e.done with
      | false => simp [step, edgeStep, hr, hf, hd, branch_eq hr hf]
      | true =>
        have hp : pushed cap p e = [] := by
          unfold pushed
          rw [if_neg]
          intro hx
          obtain ⟨-, hs, hl⟩ := hx
          exact h ⟨hr, hf, hd, hs, hl⟩
        cases hq : p.deferred <;> simp [step, edgeStep, hr, hf, hd, branch_eq hr hf, hp, hq, finish]

/-- In a collision `step` gives back the set that was just deferred. -/
theorem step_of_collides (h : Collides cap p e) :
    step cap p e = ⟨p.active ⊓ e.cond, p.deferred, some (p.active \ e.cond, e.pc)⟩ := by
  obtain ⟨hr, hf, hd, hs, hl⟩ := h
  simp [step, hr, hf, hd, branch, hs, hl, finish]

theorem pushed_of_collides (h : Collides cap p e) :
    pushed cap p e = [(p.active \ e.cond, e.pc)] :=
  if_pos ⟨h.2.1, h.2.2.2⟩

/-- In a collision on a non-empty stack `edgeStep` swaps the new set for the
top. -/
theorem edgeStep_of_collides_cons (h : Collides cap p e) {r : M × PC} {rest : List (M × PC)}
    (hq : p.deferred = r :: rest) :
    edgeStep cap p e = ⟨p.active ⊓ e.cond, (p.active \ e.cond, e.pc) :: rest, some r⟩ := by
  have hp := pushed_of_collides h
  obtain ⟨hr, hf, hd, hs, -⟩ := h
  simp [edgeStep, hr, hf, hd, hs, hq, hp]

/-- In a collision on an empty stack `edgeStep` widens the active set to the
whole warp over the set it defers. -/
theorem edgeStep_of_collides_nil (h : Collides cap p e) (hq : p.deferred = []) :
    edgeStep cap p e = ⟨⊤, [(p.active \ e.cond, e.pc)], none⟩ := by
  have hp := pushed_of_collides h
  obtain ⟨hr, -, hd, -, -⟩ := h
  simp [edgeStep, hr, hd, hq, hp]

end StepLemmas

/-! ## Other program counters

The sets never depend on the program counters stored with them. -/

section MapPc

variable {PC' : Type*} (f : PC → PC')

def mapPc (p : Paths M PC) : Paths M PC' where
  active := p.active
  deferred := p.deferred.map (Prod.map id f)
  resuming := p.resuming.map (Prod.map id f)

variable [BooleanAlgebra M]

theorem mapPc_start : mapPc f (start : Paths M PC) = start := rfl

theorem mapPc_finish (p : Paths M PC) : (mapPc f p).finish = mapPc f p.finish := by
  cases h : p.deferred <;> simp [finish, mapPc, h]

theorem mapPc_collides (cap : Nat) {p : Paths M PC} {e : Event M PC} :
    Collides cap (mapPc f p) (e.mapPc f) ↔ Collides cap p e := by
  simp [Collides, mapPc, Event.mapPc, Splits]

variable [DecidableEq M] (cap : Nat)

theorem mapPc_branch (p : Paths M PC) (c : M) (pc : PC) :
    branch cap (mapPc f p) c (f pc) = mapPc f (branch cap p c pc) := by
  have hs : (mapPc f p).Splits c ↔ p.Splits c := Iff.rfl
  have hl : (mapPc f p).deferred.length = p.deferred.length := by simp [mapPc]
  by_cases h : p.Splits c
  · rw [branch, if_pos (hs.mpr h), branch, if_pos h, hl]
    by_cases hroom : p.deferred.length < cap <;> simp [mapPc, hroom]
  · rw [branch, if_neg (mt hs.mp h), branch, if_neg h]

theorem mapPc_step (p : Paths M PC) (e : Event M PC) :
    step cap (mapPc f p) (e.mapPc f) = mapPc f (step cap p e) := by
  cases hr : p.resuming with
  | some r =>
    rw [step_resuming hr, step_resuming (r := Prod.map id f r) (by simp [mapPc, hr])]
    rfl
  | none =>
    have hr' : (mapPc f p).resuming = none := by simp [mapPc, hr]
    simp only [step, hr, hr', Event.mapPc]
    by_cases hf : e.fire = true <;> by_cases hd : e.done = true <;>
      simp only [hf, hd, Bool.false_eq_true, if_false, if_true, mapPc_branch, mapPc_finish]

end MapPc

/-! ## No lane is on two paths -/

section Sound

variable [BooleanAlgebra M]

/-- Every path has lanes and no two paths share one. -/
def Sound (p : Paths M PC) : Prop := Apart p.masks

theorem start_sound [Nontrivial M] : (start : Paths M PC).Sound := by
  simp [Sound, masks, start, apart_singleton]

theorem masks_finish_cons {p : Paths M PC} (hr : p.resuming = none) {r : M × PC}
    {rest : List (M × PC)} (hq : p.deferred = r :: rest) : p.finish.masks = p.masks := by
  simp [masks, finish, hr, hq]

theorem finish_sound [Nontrivial M] {p : Paths M PC} (hr : p.resuming = none) (h : p.Sound) :
    p.finish.Sound := by
  cases hq : p.deferred with
  | nil => simp [Sound, masks, finish, hr, hq, apart_singleton]
  | cons r rest =>
    rw [Sound, masks_finish_cons hr hq]
    exact h

theorem resume_sound {p : Paths M PC} (h : p.Sound) {r : M × PC} (hr : p.resuming = some r) :
    (⟨r.1, p.deferred, none⟩ : Paths M PC).Sound := by
  have hm : p.masks = p.active :: r.1 :: p.deferred.map Prod.fst := by simp [masks, hr]
  rw [Sound, hm] at h
  simpa [Sound, masks] using h.tail

variable [DecidableEq M] {cap : Nat} {p : Paths M PC}

theorem branch_sound (hr : p.resuming = none) (h : p.Sound) (c : M) (pc : PC) :
    (branch cap p c pc).Sound := by
  unfold branch
  split
  next hs =>
    have hm : p.masks = p.active :: p.deferred.map Prod.fst := by simp [masks, hr]
    rw [Sound, hm] at h
    by_cases hl : p.deferred.length < cap
    · simpa [Sound, masks, hr, hl] using h.split hs.1 hs.2
    · simpa [Sound, masks, hr, hl] using h.shrink inf_le_left hs.1
  next => exact h

theorem step_sound [Nontrivial M] (h : p.Sound) (e : Event M PC) : (step cap p e).Sound := by
  cases hr : p.resuming with
  | some r =>
    rw [step_resuming hr]
    exact resume_sound h hr
  | none =>
    simp only [step, hr]
    have hq : (if e.fire then branch cap p e.cond e.pc else p).Sound := by
      split
      next => exact branch_sound hr h _ _
      next => exact h
    have hn : (if e.fire then branch cap p e.cond e.pc else p).resuming = none := by
      split
      next => rw [branch_resuming, hr]
      next => exact hr
    split
    next => exact finish_sound hn hq
    next => exact hq

/-- `edgeStep` keeps the paths apart except in a collision on an empty stack. -/
theorem edgeStep_sound [Nontrivial M] (h : p.Sound) {e : Event M PC}
    (hok : ¬ (Collides cap p e ∧ p.deferred = [])) : (edgeStep cap p e).Sound := by
  by_cases hc : Collides cap p e
  · cases hq : p.deferred with
    | nil => exact absurd ⟨hc, hq⟩ hok
    | cons r rest =>
      have hm : p.masks = p.active :: r.1 :: rest.map Prod.fst := by simp [masks, hc.1, hq]
      rw [Sound, hm] at h
      rw [edgeStep_of_collides_cons hc hq]
      have hs := h.split hc.2.2.2.1.1 hc.2.2.2.1.2
      exact hs.perm (List.Perm.cons _ (List.Perm.swap _ _ _))
  · rw [edgeStep_eq_step hc]
    exact step_sound h e

end Sound

/-! ## No path is without lanes

This survives every event, also those that put a lane on two paths. -/

section Populated

variable [BooleanAlgebra M]

def Populated (p : Paths M PC) : Prop := ∀ m ∈ p.masks, m ≠ ⊥

theorem start_populated [Nontrivial M] : (start : Paths M PC).Populated := by
  simp [Populated, masks, start]

theorem populated_iff {p : Paths M PC} :
    p.Populated ↔ p.active ≠ ⊥ ∧ (∀ r, p.resuming = some r → r.1 ≠ ⊥) ∧
      ∀ e ∈ p.deferred, e.1 ≠ ⊥ := by
  cases hr : p.resuming <;> simp [Populated, masks, hr]

variable [DecidableEq M] {cap : Nat} {p : Paths M PC} {e : Event M PC}

theorem pushed_ne_bot : ∀ x ∈ pushed cap p e, x.1 ≠ ⊥ := by
  intro x hx
  unfold pushed at hx
  split at hx
  next h =>
    obtain rfl := List.mem_singleton.mp hx
    exact h.2.1.2
  next => exact absurd hx List.not_mem_nil

theorem edgeStep_populated [Nontrivial M] (h : p.Populated) (e : Event M PC) :
    (edgeStep cap p e).Populated := by
  obtain ⟨hactive, hresuming, hdeferred⟩ := populated_iff.mp h
  have hnone : ∀ r : M × PC, none = some r → r.1 ≠ ⊥ := fun _ hx => absurd hx (by simp)
  cases hr : p.resuming with
  | some r =>
    rw [edgeStep_resuming hr]
    exact populated_iff.mpr ⟨hresuming r hr, hnone, hdeferred⟩
  | none =>
    have hbranch : (if e.fire ∧ p.Splits e.cond then p.active ⊓ e.cond else p.active) ≠ ⊥ := by
      split_ifs with hs
      · exact hs.2.1
      · exact hactive
    have hpushed : ∀ l, (∀ x ∈ l, x ∈ p.deferred) → ∀ x ∈ pushed cap p e ++ l, x.1 ≠ ⊥ := by
      intro l hl x hx
      rcases List.mem_append.mp hx with hx | hx
      · exact pushed_ne_bot x hx
      · exact hdeferred x (hl x hx)
    cases hd : e.done with
    | false =>
      simp only [edgeStep, hr, hd, Bool.false_eq_true, if_false]
      exact populated_iff.mpr ⟨hbranch, hnone,
        hpushed p.deferred fun _ hx => hx⟩
    | true =>
      cases hq : p.deferred with
      | nil =>
        simp only [edgeStep, hr, hd, hq, if_true]
        exact populated_iff.mpr ⟨top_ne_bot, hnone, pushed_ne_bot⟩
      | cons r rest =>
        simp only [edgeStep, hr, hd, hq, if_true]
        refine populated_iff.mpr ⟨hbranch, fun x hx => ?_, hpushed rest fun x hx => ?_⟩
        · obtain rfl := Option.some.inj hx
          exact hdeferred _ (by rw [hq]; exact List.mem_cons_self)
        · rw [hq]
          exact List.mem_cons_of_mem _ hx

/-- Without a push nothing comes to wait. -/
theorem edgeStep_deferred_nil (hp : pushed cap p e = []) (hq : p.deferred = []) :
    (edgeStep cap p e).deferred = [] := by
  cases hr : p.resuming with
  | some r => rw [edgeStep_resuming hr, hq]
  | none => cases hd : e.done <;> simp [edgeStep, hr, hd, hq, hp]

end Populated

end Paths
end Simt
