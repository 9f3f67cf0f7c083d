/-!
# Decimals and Ratios

Exact arithmetic behind every printed number: positive ratios of natural numbers, decimals
`digits * 10 ^ exponent`, and the rounding of a ratio to a decimal grid. Nothing here mentions
doubles, so each rule can be stated over the integers alone.
-/

namespace Discretization

/-- The quotient `num / den`, rounded to the nearest natural number; a quotient that lies exactly
between two goes to the even one. -/
def roundHalfEven (num den : Nat) : Nat :=
  let quotient := num / den
  let rest := num % den
  if den < 2 * rest || (2 * rest == den && quotient % 2 == 1) then quotient + 1 else quotient

/-- A ratio of natural numbers. The denominator is positive wherever a ratio is built. -/
structure Ratio where
  /-- The numerator. -/
  num : Nat
  /-- The denominator. -/
  den : Nat
  deriving Repr, DecidableEq

namespace Ratio

/-- The ratio divided by `base ^ exponent`; a negative exponent multiplies. -/
def scaleDown (r : Ratio) (base : Nat) (exponent : Int) : Ratio :=
  if 0 ≤ exponent then ⟨r.num, r.den * Nat.pow base exponent.toNat⟩
  else ⟨r.num * Nat.pow base (-exponent).toNat, r.den⟩

/-- The ratio times `base ^ exponent`. -/
def scaleUp (r : Ratio) (base : Nat) (exponent : Int) : Ratio :=
  r.scaleDown base (-exponent)

/-- The greatest natural number that is not above the ratio. -/
def floor (r : Ratio) : Nat :=
  r.num / r.den

/-- The natural number nearest to the ratio, ties to even. -/
def round (r : Ratio) : Nat :=
  roundHalfEven r.num r.den

end Ratio

/-- The number of decimal digits of `n`; zero has one digit. -/
def decimalLength (n : Nat) : Nat :=
  if n < 10 then 1 else decimalLength (n / 10) + 1

/-- The exponent of the leading decimal digit of a positive ratio: the `k` with
`10 ^ k ≤ r < 10 ^ (k + 1)`. -/
def Ratio.decimalExponent (r : Ratio) : Int :=
  if r.den ≤ r.num then (decimalLength (r.num / r.den) : Int) - 1
  else
    let below := decimalLength (r.den / r.num) - 1
    if r.den ≤ r.num * Nat.pow 10 below then -(below : Int) else -((below : Int) + 1)

/-- The number `digits * 10 ^ exponent`. -/
structure Decimal where
  /-- All significant digits, read as one natural number. -/
  digits : Nat
  /-- The power of ten that the last digit counts. -/
  exponent : Int
  deriving Repr, DecidableEq

namespace Decimal

/-- The decimal as a ratio. -/
def toRatio (d : Decimal) : Ratio :=
  Ratio.scaleUp ⟨d.digits, 1⟩ 10 d.exponent

/-- The decimal nearest to a positive ratio on the grid of `count` significant digits, ties to
even. The result may have one digit more, when rounding carries into a new leading digit. -/
def nearest (r : Ratio) (count : Nat) : Decimal :=
  let exponent := r.decimalExponent - count + 1
  ⟨(r.scaleDown 10 exponent).round, exponent⟩

/-- The decimal nearest to a ratio with a fixed number of places, ties to even. -/
def withPlaces (r : Ratio) (places : Nat) : Decimal :=
  ⟨(r.scaleUp 10 places).round, -(places : Int)⟩

/-- Moves trailing zeros from the digits to the exponent. -/
def strip (d : Decimal) : Decimal :=
  if h : 0 < d.digits ∧ d.digits % 10 = 0 then
    strip ⟨d.digits / 10, d.exponent + 1⟩
  else d
termination_by d.digits
decreasing_by exact Nat.div_lt_self h.1 (by decide)

end Decimal

end Discretization
