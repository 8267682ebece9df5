import Simt.Cpp.MiniSM
import Simt.Stats.StatsFile
import Mathlib.Data.List.TakeWhile

/-
`main.cpp`: the command line, the run it asks for and the statistics file.

Memory is taken to be large enough.  The summary on `stdout` is left out; none
of the scripts reads it.
-/

namespace Simt
namespace Cpp

/-! ## `std::stoi` -/

inductive StoiError
  | invalidArgument
  | outOfRange
deriving DecidableEq

/-- `std::isspace` in the locale a program starts in. -/
def isSpace (c : Char) : Bool := c == ' ' || (9 ≤ c.toNat && c.toNat ≤ 13)

/-- The values of an `int`. -/
def InInt (n : Int) : Prop := -2 ^ 31 ≤ n ∧ n < 2 ^ 31

instance (n : Int) : Decidable (InInt n) := instDecidableAnd

/-- The sign and what follows it. -/
def signOf : List Char → Bool × List Char
  | '-' :: cs => (true, cs)
  | '+' :: cs => (false, cs)
  | cs => (false, cs)

/-- `std::stoi`, which leaves the characters after the number alone. -/
def stoi (s : List Char) : Except StoiError Int :=
  let (neg, cs) := signOf (s.dropWhile isSpace)
  let ds := cs.takeWhile Char.isDigit
  if ds = [] then .error .invalidArgument
  else
    let m : Int := Nat.ofDigitChars 10 ds 0
    let n := if neg then -m else m
    if InInt n then .ok n else .error .outOfRange

/-! ## The command line -/

/-- The variables of `main` that the command line sets. -/
structure Options where
  warps : Int := 4
  execLatency : Int := 4
  cycles : Int := 2000
  statsFile : String := ""
deriving DecidableEq

inductive OptionName
  | warps
  | execLatency
  | cycles
  | statsFile
deriving DecidableEq

/-- The option an argument names. -/
def optionOf (a : String) : Option OptionName :=
  if a = "--warps" ∨ a = "-w" then some .warps
  else if a = "--exec-latency" ∨ a = "-l" then some .execLatency
  else if a = "--cycles" ∨ a = "-c" then some .cycles
  else if a = "--stats-file" ∨ a = "-s" then some .statsFile
  else none

def IsHelp (a : String) : Prop := a = "--help" ∨ a = "-h"

instance (a : String) : Decidable (IsHelp a) := instDecidableOr

/-- Set an option to the argument after it. -/
def Options.assign (o : Options) (v : String) : OptionName → Except StoiError Options
  | .warps => do return { o with warps := ← stoi v.toList }
  | .execLatency => do return { o with execLatency := ← stoi v.toList }
  | .cycles => do return { o with cycles := ← stoi v.toList }
  | .statsFile => return { o with statsFile := v }

/-- Where the loop over the arguments ends. -/
inductive Parsed
  | run (o : Options)
  | help
  | threw (e : StoiError)
deriving DecidableEq

/-- The loop over the arguments, without the name of the program.  An option
that nothing follows is passed over, like an argument that is none. -/
def parseArgs (o : Options) : List String → Parsed
  | [] => .run o
  | [a] => if IsHelp a then .help else .run o
  | a :: v :: rest =>
    match optionOf a with
    | some name =>
      match o.assign v name with
      | .ok o => parseArgs o rest
      | .error e => .threw e
    | none => if IsHelp a then .help else parseArgs o (v :: rest)

/-! ## `main` -/

/-- The files by their paths. -/
abbrev Files := String → Option String

inductive Outcome
  | returns (files : Files)
  | aborts (files : Files)
  | undefined

namespace Options

variable (o : Options)

def config : Config := { warps := o.warps.toNat, execLatency := o.execLatency.toNat }

/-- The counters after the loop over the cycles. -/
def finalCounters : PerfCounters :=
  ((MiniSM.machine o.config).stateAt (fun _ => rawHeavy o.config) o.cycles.toNat).counters

end Options

/-- `main`, in which no exception is caught.  The paths in `canOpen` can be
opened for writing. -/
def main (canOpen : String → Bool) (args : List String) (files : Files) : Outcome :=
  match parseArgs {} args with
  | .help => .returns files
  | .threw _ => .aborts files
  | .run o =>
    -- `std::length_error` from the vector of instructions.
    if o.warps < 0 then .aborts files
    -- `warps * regs` in the constructor of the scoreboard.
    else if ¬ InInt (o.warps * (o.config.regs : Int)) then .undefined
    -- `std::length_error` from the vector of stages.
    else if o.execLatency < 0 then .aborts files
    -- `stages_[0]` of no stage.
    else if o.execLatency = 0 ∧ 0 < o.cycles then .undefined
    else if o.statsFile = "" then .returns files
    else if canOpen o.statsFile then
      .returns (Function.update files o.statsFile (some o.finalCounters.writeFile))
    else .aborts files

/-- The return codes and files an outcome may have. -/
def Outcome.Allows : Outcome → Int × Files → Prop
  | .returns files, r => r = (0, files)
  | .aborts files, r => r.1 ≠ 0 ∧ r.2 = files
  | .undefined, _ => True

/-! ## Numbers in arguments -/

theorem toList_toString (n : Int) :
    (toString n).toList =
      if n < 0 then '-' :: Nat.toDigits 10 n.natAbs else Nat.toDigits 10 n.natAbs := by
  cases n with
  | ofNat m =>
    have hnonneg : ¬ Int.ofNat m < 0 := Int.not_lt.mpr (Int.natCast_nonneg m)
    rw [if_neg hnonneg]
    exact Nat.toList_repr
  | negSucc m =>
    rw [if_pos (Int.negSucc_lt_zero m)]
    show ("-" ++ (m + 1).repr).toList = _
    rw [String.toList_append, Nat.toList_repr]
    rfl

theorem signOf_of_isDigit {cs : List Char} (h : ∀ c ∈ cs, c.isDigit = true) :
    signOf cs = (false, cs) := by
  unfold signOf
  split
  next cs => exact absurd (h _ List.mem_cons_self) (by decide)
  next cs => exact absurd (h _ List.mem_cons_self) (by decide)
  next => rfl

theorem isSpace_of_isDigit {c : Char} (h : c.isDigit = true) : isSpace c = false := by
  obtain ⟨hlo, hhi⟩ := Python.toNat_of_isDigit h
  have hc : c ≠ ' ' := by
    rintro rfl
    exact absurd h (by decide)
  rw [isSpace, beq_false_of_ne hc, Bool.false_or, Bool.and_eq_false_iff, decide_eq_false_iff_not,
    decide_eq_false_iff_not]
  omega

/-- The number a program prints is the one `std::stoi` reads, if an `int` can
hold it. -/
theorem stoi_toString (n : Int) :
    stoi (toString n).toList = if InInt n then .ok n else .error .outOfRange := by
  have hdig : ∀ c ∈ Nat.toDigits 10 n.natAbs, c.isDigit = true := fun c hc =>
    Nat.isDigit_of_mem_toDigits (by decide) (by decide) hc
  have hne : Nat.toDigits 10 n.natAbs ≠ [] := Nat.toDigits_ne_nil
  have htake : (Nat.toDigits 10 n.natAbs).takeWhile Char.isDigit = Nat.toDigits 10 n.natAbs :=
    List.takeWhile_eq_self_iff.mpr hdig
  have hsigned : signOf ((toString n).toList.dropWhile isSpace) =
      (decide (n < 0), Nat.toDigits 10 n.natAbs) := by
    rw [toList_toString]
    by_cases hneg : n < 0
    · rw [if_pos hneg, decide_eq_true hneg]
      rfl
    · rw [if_neg hneg, decide_eq_false hneg,
        Text.dropWhile_eq_self fun c hc => isSpace_of_isDigit (hdig c hc), signOf_of_isDigit hdig]
  have hval : (if decide (n < 0) = true then -(n.natAbs : Int) else (n.natAbs : Int)) = n := by
    by_cases hneg : n < 0
    · rw [if_pos (decide_eq_true hneg)]
      omega
    · rw [if_neg (by rw [decide_eq_true_eq]; exact hneg)]
      omega
  rw [stoi, hsigned]
  dsimp only
  rw [htake, if_neg hne, Nat.ofDigitChars_ten_toDigits, hval]

/-! ## Settings in arguments -/

/-- An option with the value it is given. -/
inductive Setting
  | warps (n : Int)
  | execLatency (n : Int)
  | cycles (n : Int)
  | statsFile (path : String)

namespace Setting

def name : Setting → OptionName
  | .warps _ => .warps
  | .execLatency _ => .execLatency
  | .cycles _ => .cycles
  | .statsFile _ => .statsFile

def value : Setting → String
  | .warps n => toString n
  | .execLatency n => toString n
  | .cycles n => toString n
  | .statsFile path => path

def set (o : Options) : Setting → Options
  | .warps n => { o with warps := n }
  | .execLatency n => { o with execLatency := n }
  | .cycles n => { o with cycles := n }
  | .statsFile path => { o with statsFile := path }

/-- The value is one that the option can take. -/
def Fits : Setting → Prop
  | .warps n => InInt n
  | .execLatency n => InInt n
  | .cycles n => InInt n
  | .statsFile _ => True

instance : (s : Setting) → Decidable s.Fits
  | .warps n => inferInstanceAs (Decidable (InInt n))
  | .execLatency n => inferInstanceAs (Decidable (InInt n))
  | .cycles n => inferInstanceAs (Decidable (InInt n))
  | .statsFile _ => instDecidableTrue

end Setting

/-- The two spellings of an option. -/
def OptionName.spell (short : Bool) : OptionName → String
  | .warps => if short then "-w" else "--warps"
  | .execLatency => if short then "-l" else "--exec-latency"
  | .cycles => if short then "-c" else "--cycles"
  | .statsFile => if short then "-s" else "--stats-file"

/-- A part of a command line: a setting, or an argument that is no option. -/
inductive Part
  | setting (short : Bool) (s : Setting)
  | other (a : String)

namespace Part

def words : Part → List String
  | .setting short s => [s.name.spell short, s.value]
  | .other a => [a]

def set (o : Options) : Part → Options
  | .setting _ s => s.set o
  | .other _ => o

def Fits : Part → Prop
  | .setting _ s => s.Fits
  | .other _ => True

instance : (e : Part) → Decidable e.Fits
  | .setting _ s => inferInstanceAs (Decidable s.Fits)
  | .other _ => instDecidableTrue

/-- An argument that is no option is not one by accident. -/
def Plain : Part → Prop
  | .setting _ _ => True
  | .other a => optionOf a = none ∧ ¬ IsHelp a

instance : (e : Part) → Decidable e.Plain
  | .setting _ _ => instDecidableTrue
  | .other _ => instDecidableAnd

end Part

theorem optionOf_spell (short : Bool) (name : OptionName) :
    optionOf (name.spell short) = some name := by
  cases name <;> cases short <;> decide

theorem assign_value (o : Options) (s : Setting) :
    o.assign s.value s.name = if s.Fits then .ok (s.set o) else .error .outOfRange := by
  have hnum : ∀ (n : Int) (f : Int → Options),
      (do return f (← stoi (toString n).toList) : Except StoiError Options) =
        if InInt n then .ok (f n) else .error .outOfRange := by
    intro n f
    rw [stoi_toString]
    split <;> rfl
  cases s with
  | warps n => exact hnum n _
  | execLatency n => exact hnum n _
  | cycles n => exact hnum n _
  | statsFile path => rfl

theorem parseArgs_setting (o : Options) (short : Bool) (s : Setting) (rest : List String) :
    parseArgs o (s.name.spell short :: s.value :: rest) =
      if s.Fits then parseArgs (s.set o) rest else .threw .outOfRange := by
  have hassign := assign_value o s
  rw [parseArgs, optionOf_spell]
  dsimp only
  by_cases hs : s.Fits
  · rw [if_pos hs] at hassign ⊢
    rw [hassign]
  · rw [if_neg hs] at hassign ⊢
    rw [hassign]

theorem parseArgs_other (o : Options) {a : String} (hopt : optionOf a = none) (hhelp : ¬ IsHelp a)
    (rest : List String) : parseArgs o (a :: rest) = parseArgs o rest := by
  cases rest with
  | nil => exact if_neg hhelp
  | cons v rest =>
    rw [parseArgs, hopt]
    exact if_neg hhelp

/-- Settings are read back in any order and spelling, with other arguments
between them; a later setting of an option replaces an earlier one. -/
theorem parseArgs_parts (o : Options) {es : List Part} (hplain : ∀ e ∈ es, e.Plain)
    (rest : List String) :
    parseArgs o (es.flatMap Part.words ++ rest) =
      if ∀ e ∈ es, e.Fits then parseArgs (es.foldl Part.set o) rest else .threw .outOfRange := by
  induction es generalizing o with
  | nil => simp
  | cons e es ih =>
    obtain ⟨he, hes⟩ := List.forall_mem_cons.mp hplain
    have hfits : (∀ e' ∈ e :: es, e'.Fits) ↔ e.Fits ∧ ∀ e' ∈ es, e'.Fits := List.forall_mem_cons
    rw [List.flatMap_cons, List.append_assoc, List.foldl_cons, if_congr hfits rfl rfl]
    cases e with
    | setting short s =>
      show parseArgs o (s.name.spell short :: s.value :: (es.flatMap Part.words ++ rest)) = _
      rw [parseArgs_setting, ih (s.set o) hes]
      by_cases hs : s.Fits
      · rw [if_pos hs]
        exact if_congr (and_iff_right hs).symm rfl rfl
      · rw [if_neg hs]
        exact (if_neg fun h => hs h.1).symm
    | other a =>
      show parseArgs o (a :: (es.flatMap Part.words ++ rest)) = _
      rw [parseArgs_other o he.1 he.2, ih o hes]
      exact if_congr (and_iff_right trivial).symm rfl rfl

/-- A repeated option, a negative number and an argument that is none. -/
theorem parseArgs_parts_mixed :
    parseArgs {} ["-w", "8", "again", "--cycles", "-3", "-w", "2"] =
      .run { warps := 2, cycles := -3 } := by
  have hwords : ["-w", "8", "again", "--cycles", "-3", "-w", "2"] =
      [Part.setting true (.warps 8), .other "again", .setting false (.cycles (-3)),
        .setting true (.warps 2)].flatMap Part.words ++ [] := rfl
  rw [hwords, parseArgs_parts {} (by decide)]
  decide

end Cpp
end Simt
