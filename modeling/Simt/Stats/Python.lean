import Mathlib.Algebra.Field.Rat
import Simt.Lib.Text

/-
The numbers of the scripts, and how they are read from text.

A `float` stands for its exact value: nothing is rounded, overflows or
underflows.  Digits are the ASCII ones.
-/

namespace Simt
namespace Python

inductive Number
  | int (n : Int)
  | float (q : Rat)
  | inf (neg : Bool)
  | nan
deriving DecidableEq

inductive Error
  | zeroDivision
  | value
deriving DecidableEq

namespace Number

/-- The value of a finite number. -/
def finite : Number → Option Rat
  | .int n => some n
  | .float q => some q
  | .inf _ => none
  | .nan => none

/-- `x > 0`. -/
def positive : Number → Bool
  | .int n => decide (0 < n)
  | .float q => decide (0 < q)
  | .inf neg => !neg
  | .nan => false

/-- `x < 0`. -/
def negative : Number → Bool
  | .int n => decide (n < 0)
  | .float q => decide (q < 0)
  | .inf neg => neg
  | .nan => false

/-- `x / y`. -/
def div (x y : Number) : Except Error Number :=
  if y.finite = some 0 then .error .zeroDivision
  else
    match x, y with
    | .nan, _ => .ok .nan
    | _, .nan => .ok .nan
    | .inf _, .inf _ => .ok .nan
    | .inf neg, y => .ok (.inf (neg != y.negative))
    | _, .inf _ => .ok (.float 0)
    | x, y => .ok (.float (x.finite.getD 0 / y.finite.getD 0))

/-- `x * 100.0`. -/
def percent : Number → Number
  | .int n => .float (n * 100)
  | .float q => .float (q * 100)
  | .inf neg => .inf neg
  | .nan => .nan

theorem div_int {n m : Int} (h : m ≠ 0) :
    div (.int n) (.int m) = .ok (.float ((n : Rat) / (m : Rat))) := by
  have hne : ¬ (Number.int m).finite = some 0 := by
    simpa [finite] using h
  unfold div
  rw [if_neg hne]
  rfl

end Number

/-! ## Reading -/

/-- `str.isspace` of one character. -/
def isSpace (c : Char) : Bool :=
  let n := c.toNat
  (9 ≤ n && n ≤ 13) || (28 ≤ n && n ≤ 32) || n == 0x85 || n == 0xA0 || n == 0x1680 ||
    (0x2000 ≤ n && n ≤ 0x200A) || n == 0x2028 || n == 0x2029 || n == 0x202F || n == 0x205F ||
    n == 0x3000

/-- `s.strip()`. -/
def strip (s : List Char) : List Char := Text.trim isSpace s

/-- The sign in front of a number. -/
def sign : List Char → Bool × List Char
  | '-' :: cs => (true, cs)
  | '+' :: cs => (false, cs)
  | cs => (false, cs)

/-- Digits with a sign. -/
def signed (s : List Char) : Option Int :=
  let (neg, s) := sign s
  (Text.digits s).map fun n => if neg then -(n : Int) else n

/-- `int(s)`. -/
def readInt (s : List Char) : Option Int := signed (strip s)

/-- The digits that may be missing on one side of the point. -/
def part (s : List Char) : Option Nat := if s = [] then some 0 else Text.digits s

/-- `10 ** e`. -/
def powTen (e : Int) : Rat := if 0 ≤ e then 10 ^ e.toNat else 1 / 10 ^ (-e).toNat

/-- `float(s)`. -/
def readFloat (s : List Char) : Option Number := do
  let (neg, s) := sign (strip s)
  let word := s.map Char.toLower
  if word = "inf".toList ∨ word = "infinity".toList then some (.inf neg)
  else if word = "nan".toList then some .nan
  else
    let inPart := fun c : Char => c.isDigit || c == '_'
    let whole := s.takeWhile inPart
    let rest := s.dropWhile inPart
    let (fraction, rest) := match rest with
      | '.' :: cs => (cs.takeWhile inPart, cs.dropWhile inPart)
      | cs => ([], cs)
    let exponent ← match rest with
      | [] => some 0
      | c :: cs => if c = 'e' ∨ c = 'E' then signed cs else none
    if whole = [] ∧ fraction = [] then none
    else
      let w ← part whole
      let f ← part fraction
      let places := fraction.countP Char.isDigit
      let q := ((w : Rat) + (f : Rat) / 10 ^ places) * powTen exponent
      some (.float (if neg then -q else q))

theorem toNat_of_isDigit {c : Char} (h : c.isDigit = true) : 48 ≤ c.toNat ∧ c.toNat ≤ 57 := by
  rw [Char.isDigit, Bool.and_eq_true, decide_eq_true_iff, decide_eq_true_iff] at h
  exact h

theorem isSpace_of_isDigit {c : Char} (h : c.isDigit = true) : isSpace c = false := by
  obtain ⟨hlo, hhi⟩ := toNat_of_isDigit h
  simp only [isSpace, Bool.or_eq_false_iff, Bool.and_eq_false_iff, decide_eq_false_iff_not,
    beq_eq_false_iff_ne]
  omega

theorem sign_of_isDigit {c : Char} (h : c.isDigit = true) (cs : List Char) :
    sign (c :: cs) = (false, c :: cs) := by
  unfold sign
  split
  next heq =>
    obtain rfl := (List.cons.inj heq).1
    exact absurd h (by decide)
  next heq =>
    obtain rfl := (List.cons.inj heq).1
    exact absurd h (by decide)
  next => rfl

theorem readInt_toDigits (n : Nat) : readInt (Nat.toDigits 10 n) = some (n : Int) := by
  have hdig : ∀ c ∈ Nat.toDigits 10 n, c.isDigit = true := fun c hc =>
    Nat.isDigit_of_mem_toDigits (by decide) (by decide) hc
  have hstrip : strip (Nat.toDigits 10 n) = Nat.toDigits 10 n :=
    Text.trim_eq_self fun c hc => isSpace_of_isDigit (hdig c hc)
  have hsign : sign (Nat.toDigits 10 n) = (false, Nat.toDigits 10 n) := by
    cases hl : Nat.toDigits 10 n with
    | nil => exact absurd hl Nat.toDigits_ne_nil
    | cons c cs => exact sign_of_isDigit (hdig c (by rw [hl]; exact List.mem_cons_self)) cs
  rw [readInt, hstrip, signed, hsign]
  dsimp only
  rw [Text.digits_toDigits]
  rfl

end Python
end Simt
