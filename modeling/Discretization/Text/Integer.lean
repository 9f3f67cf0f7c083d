import Discretization.Text.Blank
import Discretization.Text.Digit

/-!
# Integers in Text

The integers that a setting may hold: blanks around, an optional sign, decimal digits of any script,
and single underscores between digits.
-/

namespace Discretization.Text

/-- Numerals longer than this are refused. -/
def longestNumeral : Nat := 4300

/-- Reads the rest of a numeral after a digit, given the value read so far. An underscore must be
followed by a digit. -/
def digitsAfter? (value : Nat) : List Char → Option Nat
  | [] => some value
  | '_' :: c :: rest => do digitsAfter? (value * 10 + (← decimalValue? c)) rest
  | c :: rest => do digitsAfter? (value * 10 + (← decimalValue? c)) rest

/-- The value of an unsigned numeral. -/
def natural? (cs : List Char) : Option Nat :=
  match cs with
  | [] => none
  | c :: rest =>
    if longestNumeral < (cs.filter (· ≠ '_')).length then none
    else do digitsAfter? (← decimalValue? c) rest

/-- The integer that a text holds, if it holds one. -/
def integer? (s : String) : Option Int :=
  match trimBlanks s.toList with
  | '-' :: cs => (natural? cs).map fun n => -(n : Int)
  | '+' :: cs => (natural? cs).map Int.ofNat
  | cs => (natural? cs).map Int.ofNat

/-- Whether a text consists of minus signs followed by at least one digit of any kind. -/
def looksIntegral (s : String) : Bool :=
  let digits := s.toList.dropWhile (· = '-')
  !digits.isEmpty && digits.all isDigit

end Discretization.Text
