import Mathlib.Data.List.Basic
import Mathlib.Data.Nat.Basic

/-
Round-robin choice on a ring of `n` places.

`first n start p` is the first place that satisfies `p` when the ring is walked
from `start`, and `dist n a b` is the number of steps from `a` up to `b`.  When
the next walk starts behind the chosen place, every place that was passed over
without being looked at has come closer.
-/

namespace Simt

/-! ## Loops that look for the first match -/

section Loops

variable {α β : Type*}

/-- A loop that returns at the first match. -/
theorem findSome?_ite (q : α → Bool) (f : α → β) (l : List α) :
    (l.findSome? fun a => if q a then some (f a) else none) = (l.find? q).map f := by
  induction l with
  | nil => rfl
  | cons a l ih =>
    rw [List.findSome?_cons, List.find?_cons]
    cases q a with
    | true => rfl
    | false => exact ih

/-- A loop that runs to its end and keeps the first match. -/
theorem foldl_keep_first (q : α → Bool) (f : α → β) (b : β) (l : List α) :
    l.foldl (fun (acc : Bool × β) a => if !acc.1 && q a then (true, f a) else acc) (false, b) =
      match l.find? q with
      | some a => (true, f a)
      | none => (false, b) := by
  have hkeep : ∀ (l : List α) (x : β),
      l.foldl (fun (acc : Bool × β) a => if !acc.1 && q a then (true, f a) else acc) (true, x) =
        (true, x) := by
    intro l x
    induction l with
    | nil => rfl
    | cons a l ih => exact ih
  induction l with
  | nil => rfl
  | cons a l ih =>
    rw [List.foldl_cons, List.find?_cons]
    cases q a with
    | true => exact hkeep l (f a)
    | false => exact ih

end Loops

namespace RoundRobin

/-- The number of steps from `a` up to `b`. -/
def dist (n a b : Nat) : Nat := (b + n - a) % n

/-- The first place from `start` on that satisfies `p`. -/
def first (n start : Nat) (p : Nat → Bool) : Option Nat :=
  ((List.range n).find? fun i => p ((start + i) % n)).map fun i => (start + i) % n

variable {n a b start w v : Nat} {p : Nat → Bool}

theorem dist_of_le (hb : b < n) (h : a ≤ b) : dist n a b = b - a := by
  rw [dist, show b + n - a = b - a + n by omega, Nat.add_mod_right, Nat.mod_eq_of_lt (by omega)]

theorem dist_of_gt (ha : a < n) (h : b < a) : dist n a b = b + n - a := by
  rw [dist, Nat.mod_eq_of_lt (by omega)]

theorem dist_lt (ha : a < n) (hb : b < n) : dist n a b < n := by
  rcases Nat.lt_or_ge b a with h | h
  · rw [dist_of_gt ha h]
    omega
  · rw [dist_of_le hb h]
    omega

theorem add_dist (ha : a < n) (hb : b < n) : (a + dist n a b) % n = b := by
  rcases Nat.lt_or_ge b a with h | h
  · rw [dist_of_gt ha h, show a + (b + n - a) = b + n by omega, Nat.add_mod_right,
      Nat.mod_eq_of_lt hb]
  · rw [dist_of_le hb h, Nat.add_sub_cancel' h, Nat.mod_eq_of_lt hb]

theorem dist_add_mod (ha : a < n) {i : Nat} (hi : i < n) : dist n a ((a + i) % n) = i := by
  rcases Nat.lt_or_ge (a + i) n with h | h
  · rw [Nat.mod_eq_of_lt h, dist_of_le h (Nat.le_add_right a i), Nat.add_sub_cancel_left]
  · have hmod : (a + i) % n = a + i - n := by
      rw [Nat.mod_eq_sub_mod h, Nat.mod_eq_of_lt (by omega)]
    rw [hmod, dist_of_gt ha (by omega)]
    omega

theorem first_lt (h : first n start p = some w) : w < n := by
  obtain ⟨i, hi, rfl⟩ := Option.map_eq_some_iff.mp h
  obtain ⟨-, hmem, -⟩ := List.find?_range_eq_some.mp hi
  exact Nat.mod_lt _ (Nat.zero_lt_of_lt (List.mem_range.mp hmem))

theorem first_sat (h : first n start p = some w) : p w = true := by
  obtain ⟨i, hi, rfl⟩ := Option.map_eq_some_iff.mp h
  exact (List.find?_range_eq_some.mp hi).1

theorem first_eq_some (hs : start < n) (h : first n start p = some w) :
    w < n ∧ p w = true ∧ ∀ v, v < n → p v = true → dist n start w ≤ dist n start v := by
  obtain ⟨i, hi, rfl⟩ := Option.map_eq_some_iff.mp h
  obtain ⟨hp, hmem, hlast⟩ := List.find?_range_eq_some.mp hi
  have hin : i < n := List.mem_range.mp hmem
  refine ⟨Nat.mod_lt _ (by omega), hp, fun v hv hpv => ?_⟩
  rw [dist_add_mod hs hin]
  by_contra hlt
  have hnot := hlast (dist n start v) (by omega)
  rw [add_dist hs hv, hpv] at hnot
  exact absurd hnot (by decide)

theorem first_eq_none (hs : start < n) :
    first n start p = none ↔ ∀ v, v < n → p v = false := by
  rw [first, Option.map_eq_none_iff, List.find?_range_eq_none]
  constructor
  · intro h v hv
    have hnot := h (dist n start v) (dist_lt hs hv)
    rw [add_dist hs hv] at hnot
    simpa using hnot
  · intro h i _
    rw [h _ (Nat.mod_lt _ (by omega))]
    rfl

theorem exists_first (hs : start < n) (hv : v < n) (hp : p v = true) :
    ∃ w, first n start p = some w := by
  cases h : first n start p with
  | some w => exact ⟨w, rfl⟩
  | none =>
    have hnot := (first_eq_none hs).mp h v hv
    rw [hp] at hnot
    exact absurd hnot (by decide)

/-- The closest place that satisfies `p` is unique. -/
theorem first_eq_some_iff (hs : start < n) :
    first n start p = some w ↔
      w < n ∧ p w = true ∧ ∀ v, v < n → p v = true → dist n start w ≤ dist n start v := by
  constructor
  · exact first_eq_some hs
  · intro h
    obtain ⟨hw, hp, hmin⟩ := h
    obtain ⟨v, hv⟩ := exists_first hs hw hp
    obtain ⟨hvn, hpv, hmin'⟩ := first_eq_some hs hv
    have hdist : dist n start v = dist n start w :=
      Nat.le_antisymm (hmin' w hw hp) (hmin v hvn hpv)
    have hadd := add_dist hs hvn
    rw [hdist, add_dist hs hw] at hadd
    rw [hv, hadd]

theorem first_start (hs : start < n) (hp : p start = true) : first n start p = some start := by
  refine (first_eq_some_iff hs).mpr ⟨hs, hp, fun v _ _ => ?_⟩
  rw [dist_of_le hs (Nat.le_refl start), Nat.sub_self]
  exact Nat.zero_le _

/-- The walk to `v` goes through every place that is no further away. -/
theorem dist_add_dist (hs : start < n) (hw : w < n) (hv : v < n)
    (hle : dist n start w ≤ dist n start v) : dist n start w + dist n w v = dist n start v := by
  have hdist : ∀ a b, a < n → b < n → dist n a b = if a ≤ b then b - a else b + n - a := by
    intro a b ha hb
    by_cases h : a ≤ b
    · rw [if_pos h, dist_of_le hb h]
    · rw [if_neg h, dist_of_gt ha (by omega)]
  rw [hdist _ _ hs hw, hdist _ _ hs hv] at hle
  rw [hdist _ _ hs hw, hdist _ _ hs hv, hdist _ _ hw hv]
  split_ifs at hle ⊢ <;> omega

theorem dist_succ (hw : w < n) (hv : v < n) (hne : w ≠ v) :
    dist n ((w + 1) % n) v + 1 = dist n w v := by
  by_cases hlast : w + 1 = n
  · rw [hlast, Nat.mod_self, dist_of_le hv (Nat.zero_le v), dist_of_gt hw (by omega)]
    omega
  · have hroom : w + 1 < n := by omega
    rw [Nat.mod_eq_of_lt hroom]
    rcases Nat.lt_or_gt_of_ne hne with h | h
    · rw [dist_of_le hv h, dist_of_le hv (Nat.le_of_lt h)]
      omega
    · rw [dist_of_gt hroom (by omega), dist_of_gt hw h]
      omega

/-! ## Runs

`rr t` is where the walk of cycle `t` starts and `elig t` tells which places it
may choose. -/

section Run

variable (rr : Nat → Nat) (elig : Nat → Nat → Bool)

/-- The place chosen in cycle `t`. -/
def chosen (n : Nat) (t : Nat) : Option Nat := first n (rr t) (elig t)

/-- `v` may be chosen in each of the `m` cycles from `t₀` on, and never is. -/
def Waits (n t₀ m v : Nat) : Prop :=
  ∀ k, k < m → elig (t₀ + k) v = true ∧ chosen rr elig n (t₀ + k) ≠ some v

variable {rr elig} (hrr : ∀ t, rr t < n)
  (hnext : ∀ t w, chosen rr elig n t = some w → rr (t + 1) = (w + 1) % n) (hv : v < n)
  {t₀ m : Nat} (hwait : Waits rr elig n t₀ m v)

include hrr hnext hv hwait

/-- In every cycle of the wait the choice lies between the start of the walk and
`v`, and the next walk starts behind it. -/
theorem Waits.dist_chosen {k : Nat} (hk : k < m) :
    ∃ w, chosen rr elig n (t₀ + k) = some w ∧ dist n w v ≤ dist n (rr (t₀ + k)) v ∧
      dist n (rr (t₀ + (k + 1))) v < dist n w v := by
  obtain ⟨hel, hnot⟩ := hwait k hk
  obtain ⟨w, hw⟩ := exists_first (hrr (t₀ + k)) hv hel
  obtain ⟨hwn, -, hmin⟩ := first_eq_some (hrr (t₀ + k)) hw
  have hne : w ≠ v := by
    intro heq
    rw [heq] at hw
    exact hnot hw
  have hadd := dist_add_dist (hrr (t₀ + k)) hwn hv (hmin v hv hel)
  have hsucc := dist_succ hwn hv hne
  rw [← hnext (t₀ + k) w hw] at hsucc
  refine ⟨w, hw, by omega, ?_⟩
  show dist n (rr (t₀ + k + 1)) v < _
  omega

/-- The walk starts closer to `v` in every cycle of the wait. -/
theorem Waits.dist_add_le {i j : Nat} (hij : i ≤ j) (hj : j ≤ m) :
    dist n (rr (t₀ + j)) v + (j - i) ≤ dist n (rr (t₀ + i)) v := by
  induction j, hij using Nat.le_induction with
  | base => omega
  | succ j hij ih =>
    obtain ⟨w, -, hle, hlt⟩ := hwait.dist_chosen hrr hnext hv (Nat.lt_of_succ_le hj)
    have hprev := ih (Nat.le_of_succ_le hj)
    omega

/-- No place is chosen twice while `v` waits. -/
theorem Waits.chosen_ne {i j : Nat} (hij : i < j) (hj : j < m) {w : Nat}
    (hw : chosen rr elig n (t₀ + i) = some w) : chosen rr elig n (t₀ + j) ≠ some w := by
  intro hagain
  obtain ⟨a, ha, -, hbehind⟩ := hwait.dist_chosen hrr hnext hv (Nat.lt_trans hij hj)
  obtain ⟨b, hb, hahead, -⟩ := hwait.dist_chosen hrr hnext hv hj
  have hclose := hwait.dist_add_le hrr hnext hv (show i + 1 ≤ j from hij) (Nat.le_of_lt hj)
  obtain rfl : w = a := Option.some.inj (hw.symm.trans ha)
  obtain rfl : w = b := Option.some.inj (hagain.symm.trans hb)
  omega

theorem Waits.lt : m < n := by
  have hclose := hwait.dist_add_le hrr hnext hv (Nat.zero_le m) (Nat.le_refl m)
  have hstart := dist_lt (hrr (t₀ + 0)) hv
  omega

omit hwait

/-- A place that may be chosen in `n` cycles in a row is chosen in one of
them. -/
theorem served_within (hel : ∀ k, k < n → elig (t₀ + k) v = true) :
    ∃ k, k < n ∧ chosen rr elig n (t₀ + k) = some v := by
  by_contra hno
  have hwait : Waits rr elig n t₀ n v := fun k hk => ⟨hel k hk, fun h => hno ⟨k, hk, h⟩⟩
  exact Nat.lt_irrefl n (hwait.lt hrr hnext hv)

end Run

end RoundRobin
end Simt
