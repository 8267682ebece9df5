import Mathlib.Order.Basic

/-
A set-dominant latch that is reset a fixed time after each set.

`set t` says that the latch is set in cycle `t`, which also starts a reset that
arrives `L` cycles later.  `Latch set L t` is the value at the start of cycle
`t`.  One bit stands for all sets whose reset is still to come, so the reset of
an earlier set can clear it under a later one.
-/

namespace Simt

/-- The value of the latch at the start of a cycle. -/
def Latch (set : Nat → Prop) (L : Nat) : Nat → Prop
  | 0 => False
  | t + 1 => set t ∨ (Latch set L t ∧ ¬ ∃ s, s + L = t ∧ set s)

/-- Some set before cycle `t` is still to be reset. -/
def InFlight (set : Nat → Prop) (L t : Nat) : Prop := ∃ s, s < t ∧ t ≤ s + L ∧ set s

namespace Latch

variable {set : Nat → Prop} {L t : Nat}

/-- `s` is the latest set before cycle `t`, and no reset came after it. -/
def HeldFrom (set : Nat → Prop) (L t s : Nat) : Prop :=
  s < t ∧ set s ∧ (∀ r, s < r → r < t → ¬ set r) ∧
    ¬ ∃ s', s' ≤ s ∧ set s' ∧ s < s' + L ∧ s' + L < t

theorem heldFrom_self (ht : set t) : HeldFrom set L (t + 1) t := by
  refine ⟨Nat.lt_succ_self t, ht, fun r h1 h2 => absurd h1 (by omega), ?_⟩
  intro hx
  obtain ⟨s', -, -, h1, h2⟩ := hx
  omega

/-- In a cycle without a set the latest set stays the latest, and is held unless
a reset arrives. -/
theorem heldFrom_succ (hL : 1 ≤ L) (ht : ¬ set t) {s : Nat} :
    HeldFrom set L (t + 1) s ↔ HeldFrom set L t s ∧ ¬ ∃ s', s' + L = t ∧ set s' := by
  constructor
  · intro hx
    obtain ⟨hs, hset, hlast, hno⟩ := hx
    have hst : s < t := by
      rcases Nat.lt_succ_iff_lt_or_eq.mp hs with hlt | rfl
      · exact hlt
      · exact absurd hset ht
    refine ⟨⟨hst, hset, fun r h1 h2 => hlast r h1 (Nat.lt_succ_of_lt h2), ?_⟩, ?_⟩
    · intro hx
      obtain ⟨s', hle, hs', h1, h2⟩ := hx
      exact hno ⟨s', hle, hs', h1, Nat.lt_succ_of_lt h2⟩
    · -- A reset due now belongs to a set no later than `s`.
      intro hx
      obtain ⟨s', heq, hs'⟩ := hx
      have hle : s' ≤ s := by
        by_contra hgt
        exact hlast s' (by omega) (by omega) hs'
      exact hno ⟨s', hle, hs', by omega, by omega⟩
  · intro hx
    obtain ⟨⟨hs, hset, hlast, hno⟩, hdue⟩ := hx
    refine ⟨Nat.lt_succ_of_lt hs, hset, ?_, ?_⟩
    · intro r hr hrt
      rcases Nat.lt_succ_iff_lt_or_eq.mp hrt with hlt | rfl
      · exact hlast r hr hlt
      · exact ht
    · intro hx
      obtain ⟨s', hle, hs', h1, h2⟩ := hx
      rcases Nat.lt_succ_iff_lt_or_eq.mp h2 with hlt | heq
      · exact hno ⟨s', hle, hs', h1, hlt⟩
      · exact hdue ⟨s', heq, hs'⟩

/-- The latch is on exactly when no reset came after the latest set. -/
theorem iff_latest (hL : 1 ≤ L) : Latch set L t ↔ ∃ s, HeldFrom set L t s := by
  induction t with
  | zero =>
    constructor
    · exact fun h => absurd h id
    · intro hx
      obtain ⟨s, hs, -⟩ := hx
      exact absurd hs (Nat.not_lt_zero s)
  | succ t ih =>
    by_cases ht : set t
    · exact ⟨fun _ => ⟨t, heldFrom_self ht⟩, fun _ => Or.inl ht⟩
    · have hstep : Latch set L (t + 1) ↔ Latch set L t ∧ ¬ ∃ s, s + L = t ∧ set s :=
        or_iff_right ht
      rw [hstep, ih, ← exists_and_right]
      exact exists_congr fun s => (heldFrom_succ hL ht).symm

theorem congr {set' : Nat → Prop} (h : ∀ s, s < t → (set s ↔ set' s)) :
    Latch set L t ↔ Latch set' L t := by
  induction t with
  | zero => exact Iff.rfl
  | succ t ih =>
    have hdue : (∃ s, s + L = t ∧ set s) ↔ ∃ s, s + L = t ∧ set' s := by
      constructor
      · intro hx
        obtain ⟨s, hs, hset⟩ := hx
        exact ⟨s, hs, (h s (by omega)).mp hset⟩
      · intro hx
        obtain ⟨s, hs, hset⟩ := hx
        exact ⟨s, hs, (h s (by omega)).mpr hset⟩
    unfold Latch
    rw [h t (Nat.lt_succ_self t), ih fun s hs => h s (Nat.lt_succ_of_lt hs), hdue]

theorem inFlight (hL : 1 ≤ L) (h : Latch set L t) : InFlight set L t := by
  induction t with
  | zero => exact absurd h id
  | succ t ih =>
    rcases h with hset | ⟨hon, hdue⟩
    · exact ⟨t, Nat.lt_succ_self t, by omega, hset⟩
    · obtain ⟨s, hs, hle, hset⟩ := ih hon
      refine ⟨s, Nat.lt_succ_of_lt hs, ?_, hset⟩
      have hne : s + L ≠ t := fun heq => hdue ⟨s, heq, hset⟩
      omega

/-- Sets more than `L` cycles apart keep the latch on while they are in
flight. -/
theorem of_inFlight (hsparse : ∀ s r, set s → set r → s < r → r < t → s + L < r)
    (h : InFlight set L t) : Latch set L t := by
  induction t with
  | zero =>
    obtain ⟨s, hs, -⟩ := h
    exact absurd hs (Nat.not_lt_zero s)
  | succ t ih =>
    obtain ⟨s, hs, hle, hset⟩ := h
    rcases Nat.lt_succ_iff_lt_or_eq.mp hs with hlt | rfl
    · have hon := ih (fun s r hs hr hsr hrt => hsparse s r hs hr hsr (Nat.lt_succ_of_lt hrt))
        ⟨s, hlt, by omega, hset⟩
      refine Or.inr ⟨hon, ?_⟩
      intro hx
      obtain ⟨r, hr, hsetr⟩ := hx
      have := hsparse r s hsetr hset (by omega) hs
      omega
    · exact Or.inl hset

end Latch
end Simt
