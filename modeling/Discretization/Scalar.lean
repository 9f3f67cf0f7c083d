/-!
# Scalars

Support values, coefficients and bounds are scalars. The whole library is written over this
interface, so the same definitions run on doubles and can be read over an exact field: only the
instance decides how a sum is rounded. The interface carries operations and no laws; comparisons may
involve a value that is not equal to itself, as the doubles have one.
-/

namespace Discretization

/-- The numbers that models are made of. -/
class Scalar (α : Type) extends Zero α, One α, Add α, Sub α, Mul α, Div α, Neg α, BEq α, LT α, LE α
    where
  /-- Strict comparison is decidable. -/
  decidableLT : DecidableLT α
  /-- Comparison is decidable. -/
  decidableLE : DecidableLE α
  /-- Whether the number is neither infinite nor undefined. -/
  isFinite : α → Bool
  /-- The scalar nearest to the ratio `num / den`. -/
  ofRatio : (num : Int) → (den : Nat) → α
  /-- The scalar rounded to a positive number of significant decimal digits. -/
  roundSignificant : (digits : Nat) → α → α
  /-- The exact text of the number. -/
  text : α → String
  /-- The text of the number as a coefficient, with its sign and six significant digits. -/
  coefficientText : α → String

namespace Scalar

variable {α : Type} [Scalar α]

instance : DecidableLT α := Scalar.decidableLT

instance : DecidableLE α := Scalar.decidableLE

/-- The scalar of a natural number. -/
def ofNat (n : Nat) : α :=
  ofRatio n 1

/-- The sum of a list, added from the left. -/
def sum (xs : List α) : α :=
  xs.foldl (· + ·) 0

/-- The product of a list, multiplied from the left. -/
def product (xs : List α) : α :=
  xs.foldl (· * ·) 1

/-- Whether a number lies in the closed interval from `lower` to `upper`. -/
def between (lower upper x : α) : Bool :=
  lower ≤ x && x ≤ upper

/-- Whether a number differs from itself, as an undefined result does. -/
def isUndefined (x : α) : Bool :=
  !(x == x)

/-- The text of a list of numbers, in brackets. -/
def listText (xs : List α) : String :=
  "[" ++ ", ".intercalate (xs.map text) ++ "]"

/-- The text of a tuple of numbers, in parentheses; a single number is followed by a comma. -/
def tupleText (xs : List α) : String :=
  match xs with
  | [x] => "(" ++ text x ++ ",)"
  | _ => "(" ++ ", ".intercalate (xs.map text) ++ ")"

end Scalar

end Discretization
