import Mathlib.Data.Vector.Basic
import Mathlib.Tactic.TypeStar

/-
A stack kept in a fixed memory under a fill count.

The slots below the count are the stack and the slots at or above it hold
whatever an earlier push left there.  `live v k` reads the stack off the memory,
latest entry first, so that a push is a `cons` and a pop is a tail.
`popThenPush` is the bounded list such a memory is meant to hold.
-/

namespace Simt

variable {α : Type*} {n : Nat}

/-- The entries below a fill count `k`, latest first. -/
def live (v : Vector α n) (k : Nat) : List α := (v.toList.take k).reverse

@[simp] theorem live_zero (v : Vector α n) : live v 0 = [] := by
  simp [live]

theorem length_live {v : Vector α n} {k : Nat} (h : k ≤ n) : (live v k).length = k := by
  simp [live, h]

/-- The top entry is the last slot below the count. -/
theorem live_succ (v : Vector α n) {k : Nat} (h : k < n) (d : α) :
    live v (k + 1) = v.getD k d :: live v k := by
  have hk : k < v.toList.length := by simpa using h
  have htop : v.toList[k] = v.getD k d := by
    simp [Vector.getD, h]
  rw [live, List.take_succ_eq_append_getElem hk, List.reverse_append, htop]
  rfl

theorem live_set_of_le (v : Vector α n) {i k : Nat} (h : k ≤ i) (x : α) :
    live (v.setIfInBounds i x) k = live v k := by
  rw [live, live, Vector.toList_setIfInBounds, List.take_set_of_le h]

/-- Writing slot `k` and counting it in puts the value on top of the entries
below `k`.  At count `k` this is a push, at count `k + 1` it replaces the top. -/
theorem live_set_succ (v : Vector α n) {k : Nat} (h : k < n) (x : α) :
    live (v.setIfInBounds k x) (k + 1) = x :: live v k := by
  rw [live_succ _ h x, live_set_of_le v (Nat.le_refl k)]
  simp [Vector.getD, h]

/-! ## Bounded lists -/

/-- `pop` removes the top of a list, and `push` then adds `x` if fewer than `n`
entries are left. -/
def popThenPush (n : Nat) (pop push : Bool) (x : α) (l : List α) : List α :=
  let l := if pop then l.tail else l
  if push ∧ l.length < n then x :: l else l

/-- On a non-empty list both together replace the top, at every fill level. -/
theorem popThenPush_both {l : List α} (hl : l.length ≤ n) (hne : l ≠ []) (x : α) :
    popThenPush n true true x l = x :: l.tail := by
  have hpos := List.length_pos_iff.mpr hne
  have hlt : l.tail.length < n := by
    rw [List.length_tail]
    omega
  simp only [popThenPush, if_true, true_and]
  exact if_pos hlt

end Simt
