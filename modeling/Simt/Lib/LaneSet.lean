import Mathlib.Data.Finset.BooleanAlgebra
import Mathlib.Data.Fintype.Card

/-
Bit masks as sets of lanes, and families of lane sets that share no lane.

`lanesOf n b` is the set of lanes below `n` whose bit is set in `b`.  On masks
with no bit at or above `n` it is injective and carries the bitwise operations
to the set operations, so a statement about masks of any width can be proved
about sets.
-/

namespace Simt

/-! ## Masks and lane sets -/

section Masks

variable {n w : Nat}

def lanesOf (n : Nat) {w : Nat} (b : BitVec w) : Finset (Fin n) :=
  Finset.univ.filter fun i => b.getLsbD i = true

/-- No lane at or above `n` is set. -/
def Below (n : Nat) {w : Nat} (b : BitVec w) : Prop := ∀ i, n ≤ i → b.getLsbD i = false

@[simp] theorem mem_lanesOf {b : BitVec w} {i : Fin n} : i ∈ lanesOf n b ↔ b.getLsbD i = true := by
  simp [lanesOf]

theorem below_of_le (h : w ≤ n) (b : BitVec w) : Below n b :=
  fun i hi => BitVec.getLsbD_of_ge b i (Nat.le_trans h hi)

theorem below_zero : Below n (0#w) := fun _ _ => BitVec.getLsbD_zero

theorem Below.and_left {a : BitVec w} (h : Below n a) (b : BitVec w) : Below n (a &&& b) := by
  intro i hi
  rw [BitVec.getLsbD_and, h i hi, Bool.false_and]

theorem Below.and_right {b : BitVec w} (h : Below n b) (a : BitVec w) : Below n (a &&& b) := by
  intro i hi
  rw [BitVec.getLsbD_and, h i hi, Bool.and_false]

theorem lanesOf_and (a b : BitVec w) : lanesOf n (a &&& b) = lanesOf n a ⊓ lanesOf n b := by
  ext i
  simp

theorem lanesOf_not (h : n ≤ w) (a : BitVec w) : lanesOf n (~~~a) = (lanesOf n a)ᶜ := by
  ext i
  have hi : i.val < w := Nat.lt_of_lt_of_le i.isLt h
  simp [hi]

theorem lanesOf_not_and (h : n ≤ w) (a b : BitVec w) :
    lanesOf n (~~~a &&& b) = lanesOf n b \ lanesOf n a := by
  rw [lanesOf_and, lanesOf_not h, inf_comm, sdiff_eq]

theorem lanesOf_setWidth {v : Nat} (h : n ≤ v) (b : BitVec w) :
    lanesOf n (b.setWidth v) = lanesOf n b := by
  ext i
  have hi : i.val < v := Nat.lt_of_lt_of_le i.isLt h
  simp [hi]

theorem lanesOf_twoPow (h : n ≤ w) (i : Fin n) : lanesOf n (BitVec.twoPow w i) = {i} := by
  ext j
  have hi : i.val < w := Nat.lt_of_lt_of_le i.isLt h
  simp [BitVec.getLsbD_twoPow, hi, Fin.ext_iff, eq_comm]

theorem lanesOf_zero : lanesOf n (0#w) = ⊥ := by
  ext i
  simp

theorem lanesOf_allOnes (h : n ≤ w) : lanesOf n (BitVec.allOnes w) = ⊤ := by
  ext i
  have hi : i.val < w := Nat.lt_of_lt_of_le i.isLt h
  simp [hi]

theorem eq_of_lanesOf_eq {v : Nat} {a : BitVec w} {b : BitVec v} (ha : Below n a) (hb : Below n b)
    (h : lanesOf n a = lanesOf n b) (i : Nat) : a.getLsbD i = b.getLsbD i := by
  by_cases hi : i < n
  · have hmem : (⟨i, hi⟩ : Fin n) ∈ lanesOf n a ↔ (⟨i, hi⟩ : Fin n) ∈ lanesOf n b := by rw [h]
    simp only [mem_lanesOf] at hmem
    exact Bool.eq_iff_iff.mpr hmem
  · rw [ha i (Nat.le_of_not_lt hi), hb i (Nat.le_of_not_lt hi)]

theorem lanesOf_inj {a b : BitVec w} (ha : Below n a) (hb : Below n b) :
    lanesOf n a = lanesOf n b ↔ a = b := by
  constructor
  · intro h
    exact BitVec.eq_of_getLsbD_eq (fun i _ => eq_of_lanesOf_eq ha hb h i)
  · rintro rfl
    rfl

theorem map_lanesOf_inj {l l' : List (BitVec w)} (hl : ∀ m ∈ l, Below n m)
    (hl' : ∀ m ∈ l', Below n m) : l.map (lanesOf n) = l'.map (lanesOf n) ↔ l = l' := by
  constructor
  · intro h
    induction l generalizing l' with
    | nil => exact (List.map_eq_nil_iff.mp h.symm).symm
    | cons m l ih =>
      cases l' with
      | nil => exact absurd h (List.cons_ne_nil _ _)
      | cons m' l' =>
        obtain ⟨hm, hl⟩ := List.forall_mem_cons.mp hl
        obtain ⟨hm', hl'⟩ := List.forall_mem_cons.mp hl'
        obtain ⟨hhead, htail⟩ := List.cons.inj h
        rw [(lanesOf_inj hm hm').mp hhead, ih hl hl' htail]
  · rintro rfl
    rfl

theorem lanesOf_eq_bot {b : BitVec w} (hb : Below n b) : lanesOf n b = ⊥ ↔ b = 0#w := by
  rw [← lanesOf_zero, lanesOf_inj hb below_zero]

theorem disjoint_lanesOf {a b : BitVec w} (ha : Below n a) :
    Disjoint (lanesOf n a) (lanesOf n b) ↔ a &&& b = 0#w := by
  rw [disjoint_iff, ← lanesOf_and, lanesOf_eq_bot (ha.and_left b)]

theorem or_halves (m c : BitVec w) : m &&& c ||| m &&& ~~~c = m := by
  apply BitVec.eq_of_getLsbD_eq
  intro i hi
  simp only [BitVec.getLsbD_or, BitVec.getLsbD_and, BitVec.getLsbD_not, hi, decide_true,
    Bool.true_and]
  cases c.getLsbD i <;> simp

/-- A mask is its part in `c` when nothing of it is outside. -/
theorem and_eq_self {m c : BitVec w} (h : m &&& ~~~c = 0) : m &&& c = m := by
  have hor := or_halves m c
  rw [h] at hor
  exact BitVec.or_zero.symm.trans hor

theorem and_not_eq_self {m c : BitVec w} (h : m &&& c = 0) : m &&& ~~~c = m := by
  have hor := or_halves m c
  rw [h] at hor
  exact BitVec.zero_or.symm.trans hor

theorem eq_setWidth_of_lanesOf_eq {v : Nat} {a : BitVec w} {b : BitVec v} (hv : v ≤ n)
    (ha : Below n a) (h : lanesOf n a = lanesOf n b) : a = b.setWidth w := by
  apply BitVec.eq_of_getLsbD_eq
  intro i hi
  rw [BitVec.getLsbD_setWidth, eq_of_lanesOf_eq ha (below_of_le hv b) h i]
  simp [hi]

/-- The mask with lane `i` set when `f i`. -/
def maskOf (w : Nat) (f : Nat → Bool) : BitVec w :=
  (List.range w).foldl (fun b i => if f i then b ||| BitVec.twoPow w i else b) 0

theorem getLsbD_maskOf (f : Nat → Bool) {i : Nat} (hi : i < w) :
    (maskOf w f).getLsbD i = f i := by
  have hset : ∀ (b : BitVec w) (k : Nat), (if f k then b ||| BitVec.twoPow w k else b).getLsbD i =
      (b.getLsbD i || (decide (k = i) && f k)) := by
    intro b k
    cases f k with
    | false => simp
    | true =>
      have hpow : (BitVec.twoPow w k).getLsbD i = decide (k = i) := by
        rw [BitVec.getLsbD_twoPow, ← Bool.decide_and]
        exact decide_eq_decide.mpr (by omega)
      rw [if_pos rfl, BitVec.getLsbD_or, hpow, Bool.and_true]
  have hloop : ∀ k, ((List.range k).foldl (fun b i => if f i then b ||| BitVec.twoPow w i else b)
      0).getLsbD i = (decide (i < k) && f i) := by
    intro k
    induction k with
    | zero => simp
    | succ k ih =>
      rw [List.range_succ, List.foldl_append, List.foldl_cons, List.foldl_nil, hset, ih]
      by_cases hik : k = i
      · subst hik
        simp
      · have hlt : i < k + 1 ↔ i < k := by omega
        simp [hik, hlt]
  rw [maskOf, hloop w, decide_eq_true hi, Bool.true_and]

end Masks

/-! ## Families without a common part -/

section Apart

variable {M : Type*} [Lattice M] [OrderBot M]

/-- The members are non-empty and pairwise disjoint. -/
def Apart (l : List M) : Prop := (∀ m ∈ l, m ≠ ⊥) ∧ l.Pairwise Disjoint

theorem apart_cons {m : M} {l : List M} :
    Apart (m :: l) ↔ m ≠ ⊥ ∧ (∀ x ∈ l, Disjoint m x) ∧ Apart l := by
  simp only [Apart, List.mem_cons, forall_eq_or_imp, List.pairwise_cons]
  tauto

theorem apart_singleton {m : M} : Apart [m] ↔ m ≠ ⊥ := by
  simp [Apart]

theorem Apart.perm {l l' : List M} (h : Apart l) (hp : l.Perm l') : Apart l' :=
  ⟨fun m hm => h.1 m (hp.mem_iff.mpr hm), h.2.perm hp fun hd => hd.symm⟩

theorem Apart.tail {m : M} {l : List M} (h : Apart (m :: l)) : Apart l := (apart_cons.mp h).2.2

theorem Apart.shrink {m m' : M} {l : List M} (h : Apart (m :: l)) (hle : m' ≤ m) (hne : m' ≠ ⊥) :
    Apart (m' :: l) := by
  obtain ⟨-, hd, hl⟩ := apart_cons.mp h
  exact apart_cons.mpr ⟨hne, fun x hx => (hd x hx).mono_left hle, hl⟩

end Apart

section Split

variable {M : Type*} [GeneralizedBooleanAlgebra M]

/-- Splitting the head into the part inside `c` and the part outside it. -/
theorem Apart.split {m c : M} {l : List M} (h : Apart (m :: l)) (hin : m ⊓ c ≠ ⊥)
    (hout : m \ c ≠ ⊥) : Apart (m ⊓ c :: m \ c :: l) := by
  obtain ⟨-, hd, -⟩ := apart_cons.mp h
  refine apart_cons.mpr ⟨hin, fun x hx => ?_, h.shrink sdiff_le hout⟩
  rcases List.mem_cons.mp hx with rfl | hx
  · exact disjoint_inf_sdiff
  · exact (hd x hx).mono_left inf_le_left

end Split

/-- Masks inside the lanes are apart as sets when they are non-zero and no two
overlap. -/
theorem apart_map_lanesOf {n w : Nat} {l : List (BitVec w)} (hl : ∀ m ∈ l, Below n m) :
    Apart (l.map (lanesOf n)) ↔ (∀ m ∈ l, m ≠ 0#w) ∧ l.Pairwise fun a b => a &&& b = 0#w := by
  induction l with
  | nil => simp [Apart]
  | cons m l ih =>
    have hm := hl m List.mem_cons_self
    have htail : ∀ x ∈ l, Below n x := fun x hx => hl x (List.mem_cons_of_mem m hx)
    have hdisj : (∀ x ∈ l.map (lanesOf n), Disjoint (lanesOf n m) x) ↔
        ∀ x ∈ l, m &&& x = 0#w := by
      simp only [List.forall_mem_map, disjoint_lanesOf hm]
    rw [List.map_cons, apart_cons, ih htail, hdisj, Ne, lanesOf_eq_bot hm, List.pairwise_cons,
      List.forall_mem_cons]
    tauto

/-- Disjoint non-empty sets are no more than the elements they are drawn from. -/
theorem Apart.length_le {L : Type*} [Fintype L] [DecidableEq L] {l : List (Finset L)}
    (h : Apart l) : l.length ≤ Fintype.card L := by
  have hcard : ∀ l : List (Finset L), Apart l →
      ∃ s : Finset L, (∀ m ∈ l, m ≤ s) ∧ (∀ m, (∀ x ∈ l, Disjoint m x) → Disjoint m s) ∧
        l.length ≤ s.card := by
    intro l
    induction l with
    | nil => exact fun _ => ⟨∅, by simp, by simp, by simp⟩
    | cons m l ih =>
      intro h
      obtain ⟨hne, hd, hl⟩ := apart_cons.mp h
      obtain ⟨s, hle, hfar, hlen⟩ := ih hl
      refine ⟨m ∪ s, ?_, ?_, ?_⟩
      · intro x hx
        rcases List.mem_cons.mp hx with rfl | hx
        · exact Finset.subset_union_left
        · exact (hle x hx).trans Finset.subset_union_right
      · intro x hx
        exact Finset.disjoint_union_right.mpr
          ⟨hx m List.mem_cons_self, hfar x fun y hy => hx y (List.mem_cons_of_mem m hy)⟩
      · have hpos : 0 < m.card := Finset.card_pos.mpr (Finset.nonempty_iff_ne_empty.mpr hne)
        rw [Finset.card_union_of_disjoint (hfar m hd), List.length_cons]
        omega
  obtain ⟨s, -, -, hlen⟩ := hcard l h
  exact hlen.trans (Finset.card_le_univ s)

end Simt
