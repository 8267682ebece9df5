import Mathlib.Logic.Basic
import Mathlib.Order.Basic
import Mathlib.Tactic.TypeStar

/-
Clocked machines with an output in every cycle.

A machine reads one input a cycle.  A run is driven by a stream of inputs, and
`stateAt u t` is the state at the start of cycle `t`.  Every finite input
sequence is a prefix of a stream, and the state at the start of cycle `t` is
fixed by the first `t` inputs.
-/

namespace Simt

structure Mealy (σ ι ο : Type*) where
  init : σ
  next : σ → ι → σ
  out : σ → ι → ο

namespace Mealy

variable {σ τ ι κ ο ω : Type*}

section Run

variable (M : Mealy σ ι ο)

/-- The state at the start of cycle `t`. -/
def stateAt (u : Nat → ι) : Nat → σ
  | 0 => M.init
  | t + 1 => M.next (stateAt u t) (u t)

/-- The output in cycle `t`. -/
def outAt (u : Nat → ι) (t : Nat) : ο := M.out (M.stateAt u t) (u t)

@[simp] theorem stateAt_zero (u : Nat → ι) : M.stateAt u 0 = M.init := rfl

/-- The state a list of inputs leads to. -/
def after (s : σ) (is : List ι) : σ := is.foldl M.next s

/-- The outputs met by the inputs of a list that satisfy `q`. -/
def outsWhen (q : ι → Bool) (s : σ) : List ι → List ο
  | [] => []
  | i :: is =>
    if q i then M.out s i :: outsWhen q (M.next s i) is else outsWhen q (M.next s i) is

@[simp] theorem after_nil (s : σ) : M.after s [] = s := rfl

@[simp] theorem after_cons (s : σ) (i : ι) (is : List ι) :
    M.after s (i :: is) = M.after (M.next s i) is := rfl

theorem after_append (s : σ) (is js : List ι) :
    M.after s (is ++ js) = M.after (M.after s is) js := List.foldl_append

@[simp] theorem outsWhen_nil (q : ι → Bool) (s : σ) : M.outsWhen q s [] = [] := rfl

theorem outsWhen_cons_pos {q : ι → Bool} {i : ι} (h : q i = true) (s : σ) (is : List ι) :
    M.outsWhen q s (i :: is) = M.out s i :: M.outsWhen q (M.next s i) is := by
  rw [outsWhen, if_pos h]

theorem outsWhen_cons_neg {q : ι → Bool} {i : ι} (h : q i = false) (s : σ) (is : List ι) :
    M.outsWhen q s (i :: is) = M.outsWhen q (M.next s i) is := by
  rw [outsWhen, h, if_neg Bool.false_ne_true]

/-- The outputs met by a list of inputs. -/
def outs (s : σ) : List ι → List ο
  | [] => []
  | i :: is => M.out s i :: outs (M.next s i) is

/-- States that give the same output and stay related whatever the input are
told apart by no list of inputs. -/
theorem outs_eq {R : σ → σ → Prop} (hout : ∀ s t i, R s t → M.out s i = M.out t i)
    (hnext : ∀ s t i, R s t → R (M.next s i) (M.next t i)) {s t : σ} (h : R s t) (is : List ι) :
    M.outs s is = M.outs t is := by
  induction is generalizing s t with
  | nil => rfl
  | cons i is ih => rw [outs, outs, hout s t i h, ih (hnext s t i h)]

theorem outsWhen_append (q : ι → Bool) (s : σ) (is js : List ι) :
    M.outsWhen q s (is ++ js) = M.outsWhen q s is ++ M.outsWhen q (M.after s is) js := by
  induction is generalizing s with
  | nil => rfl
  | cons i is ih =>
    cases h : q i with
    | true => rw [List.cons_append, outsWhen_cons_pos M h, outsWhen_cons_pos M h, ih, after_cons,
        List.cons_append]
    | false => rw [List.cons_append, outsWhen_cons_neg M h, outsWhen_cons_neg M h, ih, after_cons]

/-- States some finite input sequence leads to. -/
inductive Reachable : σ → Prop
  | init : Reachable M.init
  | next {s : σ} (i : ι) : Reachable s → Reachable (M.next s i)

theorem reachable_after {s : σ} (hs : M.Reachable s) (is : List ι) :
    M.Reachable (M.after s is) := by
  induction is generalizing s with
  | nil => exact hs
  | cons i is ih => exact ih (hs.next i)

end Run

/-! ## Invariants -/

section Invariant

variable {M : Mealy σ ι ο}

theorem Reachable.invariant {P : σ → Prop} (h0 : P M.init)
    (hstep : ∀ s i, P s → P (M.next s i)) {s : σ} (hs : M.Reachable s) : P s := by
  induction hs with
  | init => exact h0
  | next i _ ih => exact hstep _ i ih

/-- An invariant that a step keeps only under a guard on its state and input
holds along every run whose steps meet the guard. -/
theorem stateAt_guarded {P : σ → Prop} {G : σ → ι → Prop} (h0 : P M.init)
    (hstep : ∀ s i, P s → G s i → P (M.next s i)) {u : Nat → ι} {t : Nat}
    (hg : ∀ s, s < t → G (M.stateAt u s) (u s)) : P (M.stateAt u t) := by
  induction t with
  | zero => exact h0
  | succ t ih =>
    exact hstep _ _ (ih (fun s hs => hg s (Nat.lt_succ_of_lt hs))) (hg t (Nat.lt_succ_self t))

/-- Exactly when a property holds along a run with inputs in `A`.  `Q` is an
invariant under the guard that has the property, and a step outside the guard
loses the property. -/
theorem forall_stateAt_iff {P Q : σ → Prop} {A : ι → Prop} {G : σ → ι → Prop} (h0 : Q M.init)
    (hkeep : ∀ s i, Q s → A i → G s i → Q (M.next s i)) (himp : ∀ s, Q s → P s)
    (hlose : ∀ s i, Q s → A i → ¬ G s i → ¬ P (M.next s i)) {u : Nat → ι} (hu : ∀ t, A (u t))
    (t : Nat) :
    (∀ s, s ≤ t → P (M.stateAt u s)) ↔ ∀ s, s < t → G (M.stateAt u s) (u s) := by
  have hrun : ∀ s, (∀ r, r < s → G (M.stateAt u r) (u r)) → Q (M.stateAt u s) := fun s hg =>
    stateAt_guarded (G := fun s i => A i ∧ G s i) h0 (fun s i hs h => hkeep s i hs h.1 h.2)
      fun r hr => ⟨hu r, hg r hr⟩
  constructor
  · intro hP s
    induction s using Nat.strongRecOn with
    | ind s ih =>
      intro hs
      by_contra hg
      have hQ := hrun s fun r hr => ih r hr (Nat.lt_trans hr hs)
      exact hlose _ _ hQ (hu s) hg (hP (s + 1) hs)
  · intro hG s hs
    exact himp _ (hrun s fun r hr => hG r (Nat.lt_of_lt_of_le hr hs))

/-- An invariant of every step whose inputs come from a given set. -/
theorem stateAt_invariant {P : σ → Prop} {Q : ι → Prop} (h0 : P M.init)
    (hstep : ∀ s i, P s → Q i → P (M.next s i)) {u : Nat → ι} (hu : ∀ t, Q (u t)) (t : Nat) :
    P (M.stateAt u t) :=
  stateAt_guarded (G := fun _ i => Q i) h0 hstep (fun s _ => hu s)

end Invariant

/-! ## Idle cycles before a run -/

/-- `u` after `k` cycles of `x`. -/
def afterIdle (k : Nat) (x : ι) (u : Nat → ι) (t : Nat) : ι := if t < k then x else u (t - k)

theorem afterIdle_add (k : Nat) (x : ι) (u : Nat → ι) (t : Nat) :
    afterIdle k x u (k + t) = u t := by
  rw [afterIdle, if_neg (by omega), Nat.add_sub_cancel_left]

section AfterIdle

variable {M : Mealy σ ι ο} {R : σ → σ → Prop} {x : ι}

theorem stateAt_idle (hinit : R M.init M.init)
    (hidle : ∀ s, R M.init s → R M.init (M.next s x)) (u : Nat → ι) {k t : Nat} (ht : t ≤ k) :
    R M.init (M.stateAt (afterIdle k x u) t) := by
  induction t with
  | zero => exact hinit
  | succ t ih =>
    have hx : afterIdle k x u t = x := if_pos ht
    rw [stateAt, hx]
    exact hidle _ (ih (Nat.le_of_succ_le ht))

/-- An input that leaves the first state alone, up to `R`, only delays a run. -/
theorem stateAt_afterIdle (hinit : R M.init M.init)
    (hidle : ∀ s, R M.init s → R M.init (M.next s x))
    (hnext : ∀ s s' i, R s s' → R (M.next s i) (M.next s' i)) (u : Nat → ι) (k t : Nat) :
    R (M.stateAt u t) (M.stateAt (afterIdle k x u) (k + t)) := by
  induction t with
  | zero => exact stateAt_idle hinit hidle u (Nat.le_refl k)
  | succ t ih =>
    show R (M.next (M.stateAt u t) (u t))
      (M.next (M.stateAt (afterIdle k x u) (k + t)) (afterIdle k x u (k + t)))
    rw [afterIdle_add]
    exact hnext _ _ _ ih

end AfterIdle

/-! ## Lockstep simulation -/

section Simulation

variable {M : Mealy σ ι ο} {N : Mealy τ κ ω}

/-- `R` is kept by every pair of steps on inputs that are related by `Q` in the
left state. -/
structure Simulates (M : Mealy σ ι ο) (N : Mealy τ κ ω) (Q : σ → ι → κ → Prop)
    (R : σ → τ → Prop) : Prop where
  init : R M.init N.init
  next : ∀ s t i k, R s t → Q s i k → R (M.next s i) (N.next t k)

theorem Simulates.stateAt {Q : σ → ι → κ → Prop} {R : σ → τ → Prop} (h : Simulates M N Q R)
    {u : Nat → ι} {v : Nat → κ} {t : Nat} (hq : ∀ s, s < t → Q (M.stateAt u s) (u s) (v s)) :
    R (M.stateAt u t) (N.stateAt v t) := by
  induction t with
  | zero => exact h.init
  | succ t ih =>
    exact h.next _ _ _ _ (ih (fun s hs => hq s (Nat.lt_succ_of_lt hs))) (hq t (Nat.lt_succ_self t))

theorem forall_outsWhen {I : σ → Prop} {G : ι → Prop} {P : ο → Prop}
    (hkeep : ∀ s i, I s → G i → I (M.next s i)) (hout : ∀ s i, I s → P (M.out s i)) (q : ι → Bool)
    (is : List ι) (hG : ∀ i ∈ is, G i) {s : σ} (hs : I s) : ∀ o ∈ M.outsWhen q s is, P o := by
  induction is generalizing s with
  | nil => exact fun o ho => absurd ho List.not_mem_nil
  | cons i is ih =>
    have htail := ih (fun j hj => hG j (List.mem_cons_of_mem i hj))
      (hkeep s i hs (hG i List.mem_cons_self))
    cases hq : q i with
    | true =>
      rw [outsWhen_cons_pos M hq]
      exact List.forall_mem_cons.mpr ⟨hout s i hs, htail⟩
    | false =>
      rw [outsWhen_cons_neg M hq]
      exact htail

/-- A machine whose states and outputs are read off those of `M` step by step
goes through the readings of the run of `M`, on inputs that meet `G`. -/
theorem after_outsWhen_map (f : ι → κ) (abs : σ → τ) (view : ο → ω) {I : σ → Prop} {G : ι → Prop}
    (hkeep : ∀ s i, I s → G i → I (M.next s i))
    (hnext : ∀ s i, I s → G i → N.next (abs s) (f i) = abs (M.next s i))
    (hout : ∀ s i, I s → N.out (abs s) (f i) = view (M.out s i)) (q : κ → Bool) (is : List ι)
    (hG : ∀ i ∈ is, G i) {s : σ} (hs : I s) :
    N.after (abs s) (is.map f) = abs (M.after s is) ∧ I (M.after s is) ∧
      N.outsWhen q (abs s) (is.map f) = (M.outsWhen (q ∘ f) s is).map view := by
  induction is generalizing s with
  | nil => exact ⟨rfl, hs, rfl⟩
  | cons i is ih =>
    have hi := hG i List.mem_cons_self
    obtain ⟨ha, hI, ho⟩ := ih (fun j hj => hG j (List.mem_cons_of_mem i hj)) (hkeep s i hs hi)
    rw [List.map_cons, after_cons, after_cons, hnext s i hs hi]
    refine ⟨ha, hI, ?_⟩
    cases hq : q (f i) with
    | true =>
      rw [outsWhen_cons_pos N hq, outsWhen_cons_pos M (q := q ∘ f) hq, hnext s i hs hi, ho,
        hout s i hs, List.map_cons]
    | false =>
      rw [outsWhen_cons_neg N hq, outsWhen_cons_neg M (q := q ∘ f) hq, hnext s i hs hi, ho]

end Simulation

end Mealy
end Simt
