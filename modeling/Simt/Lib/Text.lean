import Mathlib.Data.List.Basic

/-
Text files as lists of characters: lines, trimming, cutting at a character and
decimal numbers.
-/

namespace Simt
namespace Text

/-! ## Lines -/

/-- The three line ends as one. -/
def universal : List Char → List Char
  | [] => []
  | '\r' :: '\n' :: cs => '\n' :: universal cs
  | c :: cs => (if c = '\r' then '\n' else c) :: universal cs

/-- The lines without their line ends.  There is no line after the last one. -/
def lines : List Char → List (List Char)
  | [] => []
  | c :: cs =>
    if c = '\n' then [] :: lines cs
    else
      match lines cs with
      | [] => [[c]]
      | l :: ls => (c :: l) :: ls

theorem universal_eq_self {cs : List Char} (h : '\r' ∉ cs) : universal cs = cs := by
  induction cs with
  | nil => rfl
  | cons c cs ih =>
    obtain ⟨hc, hcs⟩ := List.ne_and_not_mem_of_not_mem_cons h
    rw [universal, if_neg (Ne.symm hc), ih hcs]
    intro cs' hcr
    exact absurd hcr (Ne.symm hc)

theorem lines_append {l : List Char} (hl : '\n' ∉ l) (cs : List Char) :
    lines (l ++ '\n' :: cs) = l :: lines cs := by
  induction l with
  | nil => rfl
  | cons c l ih =>
    obtain ⟨hc, hl⟩ := List.ne_and_not_mem_of_not_mem_cons hl
    rw [List.cons_append, lines, if_neg (Ne.symm hc), ih hl]

/-! ## Trimming and cutting -/

/-- Drop the characters in `p` at both ends. -/
def trim (p : Char → Bool) (l : List Char) : List Char :=
  ((l.dropWhile p).reverse.dropWhile p).reverse

/-- The parts before and after the first `c`. -/
def cut (c : Char) (l : List Char) : Option (List Char × List Char) :=
  if c ∈ l then some (l.takeWhile (· != c), (l.dropWhile (· != c)).tail) else none

theorem dropWhile_eq_self {p : Char → Bool} {l : List Char} (h : ∀ c ∈ l, p c = false) :
    l.dropWhile p = l := by
  cases l with
  | nil => rfl
  | cons c l => rw [List.dropWhile_cons, h c List.mem_cons_self, if_neg Bool.false_ne_true]

theorem trim_eq_self {p : Char → Bool} {l : List Char} (h : ∀ c ∈ l, p c = false) :
    trim p l = l := by
  rw [trim, dropWhile_eq_self h, dropWhile_eq_self fun c hc => h c (List.mem_reverse.mp hc),
    List.reverse_reverse]

theorem cut_append {c : Char} {l : List Char} (hl : c ∉ l) (r : List Char) :
    cut c (l ++ c :: r) = some (l, r) := by
  have hne : ∀ x ∈ l, (x != c) = true := by
    intro x hx
    rw [bne_iff_ne]
    intro h
    exact hl (h ▸ hx)
  have hmem : c ∈ l ++ c :: r := List.mem_append_right _ List.mem_cons_self
  rw [cut, if_pos hmem, List.takeWhile_append_of_pos hne, List.dropWhile_append_of_pos hne]
  simp

/-! ## Decimal numbers -/

/-- The value of the digits after `acc`, with single underscores between
them. -/
def readDigits (acc : Nat) : List Char → Option Nat
  | [] => some acc
  | '_' :: c :: cs => if c.isDigit then readDigits (10 * acc + (c.toNat - '0'.toNat)) cs else none
  | c :: cs => if c.isDigit then readDigits (10 * acc + (c.toNat - '0'.toNat)) cs else none

/-- A non-empty digit string. -/
def digits : List Char → Option Nat
  | [] => none
  | c :: cs => if c.isDigit then readDigits (c.toNat - '0'.toNat) cs else none

theorem readDigits_eq {cs : List Char} (h : ∀ c ∈ cs, c.isDigit = true) (acc : Nat) :
    readDigits acc cs = some (Nat.ofDigitChars 10 cs acc) := by
  induction cs generalizing acc with
  | nil => rfl
  | cons c cs ih =>
    obtain ⟨hc, hcs⟩ := List.forall_mem_cons.mp h
    have hus : c ≠ '_' := by
      rintro rfl
      exact absurd hc (by decide)
    rw [readDigits, if_pos hc, ih hcs, Nat.ofDigitChars_cons]
    intro c' cs' hu
    exact absurd hu hus

theorem digits_toDigits (n : Nat) : digits (Nat.toDigits 10 n) = some n := by
  have hdig : ∀ c ∈ Nat.toDigits 10 n, c.isDigit = true := fun c hc =>
    Nat.isDigit_of_mem_toDigits (by decide) (by decide) hc
  have hval := Nat.ofDigitChars_ten_toDigits (n := n)
  cases hl : Nat.toDigits 10 n with
  | nil => exact absurd hl Nat.toDigits_ne_nil
  | cons c cs =>
    rw [hl] at hdig hval
    obtain ⟨hc, hcs⟩ := List.forall_mem_cons.mp hdig
    rw [Nat.ofDigitChars_cons, Nat.mul_zero, Nat.zero_add] at hval
    rw [digits, if_pos hc, readDigits_eq hcs, hval]

end Text

end Simt
