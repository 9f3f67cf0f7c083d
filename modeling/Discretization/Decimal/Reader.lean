import Discretization.Decimal.Layout

/-!
# Reading Numbers

Doubles in text: a decimal numeral with an optional sign, point and exponent, or the name of a value
that is not finite. A numeral stands for the double nearest to it, so the exact text of a double
reads back as that double.
-/

namespace Discretization

/-- Splits a leading sign off; the flag says whether it is a minus. -/
def splitSign : List Char → Bool × List Char
  | '-' :: rest => (true, rest)
  | '+' :: rest => (false, rest)
  | cs => (false, cs)

/-- The natural number that a nonempty list of the digits 0 to 9 spells. -/
def ofDigits? (cs : List Char) : Option Nat :=
  if cs.isEmpty || !cs.all Char.isDigit then none
  else some (cs.foldl (fun n c => n * 10 + (c.toNat - 48)) 0)

/-- The exponent part of a numeral, from its mark on; without the part it is zero. -/
def exponentPart? : List Char → Option Int
  | [] => some 0
  | _ :: rest =>
    let (negative, digits) := splitSign rest
    (ofDigits? digits).map fun n => if negative then -(n : Int) else n

/-- The decimal that an unsigned numeral spells. -/
def Decimal.ofNumeral? (cs : List Char) : Option Decimal := do
  let (mantissa, rest) := cs.span fun c => c ≠ 'e' ∧ c ≠ 'E'
  let (whole, places) := mantissa.span (· ≠ '.')
  let places := places.drop 1
  return ⟨← ofDigits? (whole ++ places), (← exponentPart? rest) - places.length⟩

/-- The bits of the magnitude that a word names, in letters of either case. -/
def Binary64.namedBits? (word : List Char) : Option Nat :=
  let word := String.ofList (word.map Char.toLower)
  if word = "inf" ∨ word = "infinity" then some infinityBits
  else if word = "nan" then some (infinityBits + hiddenBit / 2)
  else none

/-- The double that a text spells. -/
def Binary64.ofText? (s : String) : Option Float :=
  let (negative, cs) := splitSign s.toList
  match namedBits? cs with
  | some bits => some (ofMagnitude negative bits)
  | none => (Decimal.ofNumeral? cs).map (ofDecimal negative)

end Discretization
