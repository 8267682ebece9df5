import Mathlib.Logic.Basic
import Mathlib.Tactic.TypeStar

/-
A register written in some cycles.

`lastWritten P val x t` is its content at the start of cycle `t` when the cycles in `P`
write the values `val` and `x` was there at first.  A register whose writes
arrive `L` cycles late holds what it held `L` cycles ago, and that is the same
unless a write is on its way.
-/

namespace Simt

/-- The latest cycle before `t` in `P`. -/
def latest (P : Nat → Bool) : Nat → Option Nat
  | 0 => none
  | t + 1 => if P t then some t else latest P t

def lastWritten {α : Type*} (P : Nat → Bool) (val : Nat → α) (x : α) (t : Nat) : α :=
  (latest P t).elim x val

section Latest

variable {P : Nat → Bool} {t : Nat}

theorem latest_eq_of_quiet {a b : Nat} (hab : a ≤ b)
    (h : ∀ s, a ≤ s → s < b → P s = false) : latest P b = latest P a := by
  induction hab with
  | refl => rfl
  | @step b hab ih =>
    rw [latest, h b hab (Nat.lt_succ_self b), if_neg Bool.false_ne_true]
    exact ih fun s h1 h2 => h s h1 (Nat.lt_succ_of_lt h2)

/-- Some cycle before `t` is the latest if there is any. -/
theorem exists_latest {s : Nat} (hs : s < t) (h : P s = true) :
    ∃ s', latest P t = some s' ∧ s ≤ s' ∧ s' < t ∧ P s' = true := by
  induction t with
  | zero => exact absurd hs (Nat.not_lt_zero s)
  | succ t ih =>
    by_cases ht : P t = true
    · exact ⟨t, by rw [latest, if_pos ht], Nat.lt_succ_iff.mp hs, Nat.lt_succ_self t, ht⟩
    · have hne : s ≠ t := by
        rintro rfl
        exact ht h
      obtain ⟨s', hlatest, hle, hlt, hP⟩ := ih (by omega)
      exact ⟨s', by rw [latest, if_neg ht, hlatest], hle, by omega, hP⟩

theorem latest_spec {s : Nat} (h : latest P t = some s) : s < t ∧ P s = true := by
  induction t with
  | zero => exact absurd h (by simp [latest])
  | succ t ih =>
    rw [latest] at h
    split at h
    next ht =>
      obtain rfl := Option.some.inj h
      exact ⟨Nat.lt_succ_self t, ht⟩
    next => exact ⟨Nat.lt_succ_of_lt (ih h).1, (ih h).2⟩

end Latest

section Held

variable {α : Type*} {P : Nat → Bool} {val : Nat → α} {x : α} {t : Nat}

@[simp] theorem lastWritten_zero : lastWritten P val x 0 = x := rfl

theorem lastWritten_succ :
    lastWritten P val x (t + 1) = if P t then val t else lastWritten P val x t := by
  rw [lastWritten, latest]
  split <;> rfl

theorem lastWritten_eq_of_quiet {a b : Nat} (hab : a ≤ b) (h : ∀ s, a ≤ s → s < b → P s = false) :
    lastWritten P val x b = lastWritten P val x a := by
  rw [lastWritten, lastWritten, latest_eq_of_quiet hab h]

theorem lastWritten_of_latest {s : Nat} (h : latest P t = some s) :
    lastWritten P val x t = val s := by
  rw [lastWritten, h, Option.elim_some]

theorem lastWritten_congr {val' : Nat → α} (h : ∀ s, s < t → P s = true → val s = val' s) :
    lastWritten P val x t = lastWritten P val' x t := by
  induction t with
  | zero => rfl
  | succ t ih =>
    rw [lastWritten_succ, lastWritten_succ, ih fun s hs => h s (Nat.lt_succ_of_lt hs)]
    split
    next ht => exact h t (Nat.lt_succ_self t) ht
    next => rfl

/-- A register whose writes arrive `L` cycles late. -/
theorem eq_lastWritten_delayed {L : Nat} {g : Nat → α} (hzero : g 0 = x)
    (hstep : ∀ t, g (t + 1) = if L ≤ t ∧ P (t - L) = true then val (t - L) else g t)
    (t : Nat) : g t = lastWritten P val x (t - L) := by
  induction t with
  | zero => rw [hzero, Nat.zero_sub, lastWritten_zero]
  | succ t ih =>
    rw [hstep, ih]
    by_cases hle : L ≤ t
    · rw [Nat.succ_sub hle, lastWritten_succ]
      simp only [hle, true_and]
    · rw [if_neg fun h => hle h.1, show t - L = 0 by omega, show t + 1 - L = 0 by omega]

end Held

end Simt
