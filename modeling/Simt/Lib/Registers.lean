import Mathlib.Algebra.BigOperators.Group.Finset.Basic
import Mathlib.Data.Vector.Basic
import Mathlib.Tactic.TypeStar

/-
Register arrays of a fixed size, read with a default outside their range, the
delay a shift register puts on its input, and counters that wrap.
-/

namespace Simt

/-! ## Reads -/

section Read

variable {α : Type*} {n : Nat}

theorem getD_of_lt (xs : Vector α n) {i : Nat} (h : i < n) (d : α) : xs.getD i d = xs[i] := by
  simp [Vector.getD, h]

theorem getD_of_ge (xs : Vector α n) {i : Nat} (h : n ≤ i) (d : α) : xs.getD i d = d := by
  simp [Vector.getD, Array.getD, Nat.not_lt.mpr h]

@[simp] theorem getD_replicate (i : Nat) (d : α) : (Vector.replicate n d).getD i d = d := by
  by_cases h : i < n
  · rw [getD_of_lt _ h, Vector.getElem_replicate]
  · exact getD_of_ge _ (Nat.le_of_not_lt h) d

theorem getD_ofFn (f : Fin n → α) {i : Nat} (h : i < n) (d : α) :
    (Vector.ofFn f).getD i d = f ⟨i, h⟩ := by
  rw [getD_of_lt _ h, Vector.getElem_ofFn]

theorem getD_map {β : Type*} (f : α → β) (xs : Vector α n) (i : Nat) (d : α) :
    (xs.map f).getD i (f d) = f (xs.getD i d) := by
  by_cases h : i < n
  · rw [getD_of_lt _ h, getD_of_lt _ h, Vector.getElem_map]
  · rw [getD_of_ge _ (Nat.le_of_not_lt h), getD_of_ge _ (Nat.le_of_not_lt h)]

theorem getD_setIfInBounds_self (xs : Vector α n) {i : Nat} (h : i < n) (x d : α) :
    (xs.setIfInBounds i x).getD i d = x := by
  rw [getD_of_lt _ h, Vector.getElem_setIfInBounds_self]

theorem getD_setIfInBounds_ne (xs : Vector α n) {i j : Nat} (h : i ≠ j) (x d : α) :
    (xs.setIfInBounds i x).getD j d = xs.getD j d := by
  by_cases hj : j < n
  · rw [getD_of_lt _ hj, getD_of_lt _ hj, Vector.getElem_setIfInBounds_ne hj h]
  · rw [getD_of_ge _ (Nat.le_of_not_lt hj), getD_of_ge _ (Nat.le_of_not_lt hj)]

end Read

/-! ## Shifting -/

section Shift

variable {α : Type*} {n : Nat}

/-- The first `k` rounds of the loop `xs[i] = xs[i + 1]`. -/
theorem getD_foldl_shift (xs : Vector α n) (d : α) {k : Nat} (hk : k < n) (i : Nat) :
    ((List.range k).foldl (fun xs i => xs.setIfInBounds i (xs.getD (i + 1) d)) xs).getD i d =
      if i < k then xs.getD (i + 1) d else xs.getD i d := by
  induction k generalizing i with
  | zero => rfl
  | succ k ih =>
    have hlt : k < n := Nat.lt_of_succ_lt hk
    rw [List.range_succ, List.foldl_append, List.foldl_cons, List.foldl_nil]
    by_cases hi : k = i
    · rw [← hi, getD_setIfInBounds_self _ hlt, ih hlt, if_neg (by omega), if_pos (by omega)]
    · rw [getD_setIfInBounds_ne _ hi, ih hlt]
      by_cases hik : i < k
      · rw [if_pos hik, if_pos (by omega)]
      · rw [if_neg hik, if_neg (by omega)]

end Shift

/-! ## Counts over the first cycles -/

theorem countP_range_succ (p : Nat → Bool) (n : Nat) :
    (List.range (n + 1)).countP p = (List.range n).countP p + if p n then 1 else 0 := by
  rw [List.range_succ, List.countP_append, List.countP_singleton]

theorem countP_range_le (p : Nat → Bool) (n : Nat) : (List.range n).countP p ≤ n :=
  List.countP_le_length.trans_eq List.length_range

theorem countP_range_split (p q : Nat → Bool) (n : Nat) :
    (List.range n).countP p + (List.range n).countP (fun t => !p t && q t) +
      (List.range n).countP (fun t => !p t && !q t) = n := by
  induction n with
  | zero => rfl
  | succ n ih =>
    rw [countP_range_succ, countP_range_succ, countP_range_succ]
    cases p n <;> cases q n <;> simp <;> omega

/-- Nothing is counted in the first `k` cycles. -/
theorem countP_range_delayed {p q : Nat → Bool} {k : Nat} (hlow : ∀ t, t < k → p t = false)
    (hhigh : ∀ t, p (k + t) = q t) (n : Nat) :
    (List.range n).countP p = (List.range (n - k)).countP q := by
  induction n with
  | zero =>
    rw [Nat.zero_sub]
    rfl
  | succ n ih =>
    rw [countP_range_succ, ih]
    by_cases hle : k ≤ n
    · have hp : p n = q (n - k) := by
        rw [← hhigh, Nat.add_sub_cancel' hle]
      rw [Nat.succ_sub hle, countP_range_succ, hp]
    · rw [hlow n (by omega), show n - k = 0 by omega, show n + 1 - k = 0 by omega]
      rfl

theorem countP_range_single {p : Nat → Bool} {a n : Nat} (ha : a < n)
    (hp : ∀ i, i < n → i ≠ a → p i = false) :
    (List.range n).countP p = if p a then 1 else 0 := by
  induction n with
  | zero => exact absurd ha (Nat.not_lt_zero a)
  | succ n ih =>
    rw [countP_range_succ]
    by_cases han : a = n
    · have hnone : (List.range n).countP p = 0 := by
        rw [List.countP_eq_zero]
        intro i hi
        have hlt := List.mem_range.mp hi
        rw [hp i (by omega) (by omega)]
        exact Bool.false_ne_true
      rw [hnone, Nat.zero_add, han]
    · rw [ih (by omega) fun i hi => hp i (by omega), hp n (by omega) (Ne.symm han)]
      rfl

/-! ## Delay lines

`reg t i` is the content of place `i` at the start of cycle `t`.  Every entry
moves one place down in a cycle and a new one enters at the top. -/

section Delay

variable {α : Type*} {L : Nat} {d : α} (reg : Nat → Nat → α) {input : Nat → α}

/-- A place holds the input of as many cycles ago as the entry has moved. -/
theorem delay_eq (hzero : ∀ i, i < L → reg 0 i = d)
    (hshift : ∀ t i, i + 1 < L → reg (t + 1) i = reg t (i + 1))
    (hload : ∀ t i, i + 1 = L → reg (t + 1) i = input t) {t i : Nat} (hi : i < L) :
    reg t i = if L ≤ t + i then input (t + i - L) else d := by
  induction t generalizing i with
  | zero => rw [hzero i hi, if_neg (by omega)]
  | succ t ih =>
    by_cases hlast : i + 1 = L
    · have ht : t + 1 + i - L = t := by omega
      rw [hload t i hlast, if_pos (by omega), ht]
    · have hlt : i + 1 < L := by omega
      have ht : t + (i + 1) = t + 1 + i := by omega
      rw [hshift t i hlt, ih hlt, ht]

/-- Of the entries that count, those that went in are out again or still
inside. -/
theorem countP_input_eq (q : α → Bool) (hL : 1 ≤ L) (hd : q d = false)
    (hzero : ∀ i, i < L → reg 0 i = d)
    (hshift : ∀ t i, i + 1 < L → reg (t + 1) i = reg t (i + 1))
    (hload : ∀ t i, i + 1 = L → reg (t + 1) i = input t) (n : Nat) :
    (List.range n).countP (fun t => q (input t)) =
      (List.range n).countP (fun t => q (reg t 0)) +
        (List.range L).countP fun i => q (reg n i) := by
  obtain ⟨k, rfl⟩ : ∃ k, L = k + 1 := ⟨L - 1, by omega⟩
  induction n with
  | zero =>
    have hnone : (List.range (k + 1)).countP (fun i => q (reg 0 i)) = 0 := by
      rw [List.countP_eq_zero]
      intro i hi
      rw [hzero i (List.mem_range.mp hi), hd]
      exact Bool.false_ne_true
    simp [hnone]
  | succ n ih =>
    -- The places of the next cycle are the places above the lowest, and the input.
    have hnext : (List.range k).countP (fun i => q (reg (n + 1) i)) =
        (List.range k).countP fun i => q (reg n (i + 1)) := by
      apply List.countP_congr
      intro i hi
      rw [hshift n i (Nat.succ_lt_succ (List.mem_range.mp hi))]
    have hnow : (List.range (k + 1)).countP (fun i => q (reg n i)) =
        (List.range k).countP (fun i => q (reg n (i + 1))) + if q (reg n 0) then 1 else 0 := by
      rw [List.range_succ_eq_map, List.countP_cons, List.countP_map]
      rfl
    rw [countP_range_succ, countP_range_succ, countP_range_succ, ih, hnext, hload n k rfl, hnow]
    omega

end Delay

/-! ## Counters -/

section Tally

/-- A counter after a cycle that is counted when `b`. -/
def tally {w : Nat} (b : Bool) (c : BitVec w) : BitVec w := if b then c + 1 else c

theorem setWidth_tally {v w : Nat} (h : v ≤ w) (b : Bool) (c : BitVec w) :
    (tally b c).setWidth v = tally b (c.setWidth v) := by
  cases b with
  | false => rfl
  | true =>
    have hone : (1#w).setWidth v = 1#v := by
      rw [BitVec.setWidth_ofNat_of_le h]
    show (c + 1#w).setWidth v = c.setWidth v + 1#v
    rw [BitVec.setWidth_add _ _ h, hone]

theorem tally_ofNat {w : Nat} (b : Bool) (n : Nat) :
    tally b (BitVec.ofNat w n) = BitVec.ofNat w (n + if b then 1 else 0) := by
  cases b with
  | false => rfl
  | true => exact (BitVec.ofNat_add n 1).symm

theorem toNat_tally_true {w : Nat} {c : BitVec w} (h : c.toNat + 1 < 2 ^ w) :
    (tally true c).toNat = c.toNat + 1 := by
  show (c + 1#w).toNat = c.toNat + 1
  rw [BitVec.toNat_add, BitVec.toNat_ofNat, Nat.mod_eq_of_lt (by omega : 1 < 2 ^ w),
    Nat.mod_eq_of_lt h]

theorem tally_eq_add {w : Nat} (b : Bool) (c : BitVec w) :
    tally b c = c + if b then 1 else 0 := by
  cases b with
  | false => exact (BitVec.add_zero c).symm
  | true => rfl

theorem ofNat_eq_zero_iff {w k : Nat} : BitVec.ofNat w k = 0 ↔ 2 ^ w ∣ k := by
  rw [← BitVec.toNat_inj, BitVec.toNat_ofNat]
  exact (Nat.dvd_iff_mod_eq_zero).symm

theorem foldl_add_ofNat (k n : Nat) (b : Nat → Bool) (f : Nat → Nat) :
    (List.range n).foldl (fun sum i => if b i then sum + BitVec.ofNat k (f i) else sum) 0 =
      BitVec.ofNat k (∑ i ∈ Finset.range n, if b i then f i else 0) := by
  induction n with
  | zero => rfl
  | succ n ih =>
    rw [List.range_succ, List.foldl_append, List.foldl_cons, List.foldl_nil, ih,
      Finset.sum_range_succ, BitVec.ofNat_add]
    cases b n with
    | false => exact (BitVec.add_zero _).symm
    | true => rfl

/-- Two registers that each add something in every cycle agree along a run
exactly when they add the same in every cycle of it. -/
theorem sums_agree_iff {w : Nat} {a b x y : Nat → BitVec w} (hzero : a 0 = b 0)
    (ha : ∀ t, a (t + 1) = a t + x t) (hb : ∀ t, b (t + 1) = b t + y t) (n : Nat) :
    (∀ t, t ≤ n → a t = b t) ↔ ∀ t, t < n → x t = y t := by
  constructor
  · intro h t ht
    have hsucc := h (t + 1) ht
    rw [ha, hb, h t (Nat.le_of_lt ht)] at hsucc
    exact (BitVec.add_right_inj _).mp hsucc
  · intro h t ht
    induction t with
    | zero => exact hzero
    | succ t ih => rw [ha, hb, ih (Nat.le_of_succ_le ht), h t ht]

end Tally

end Simt
