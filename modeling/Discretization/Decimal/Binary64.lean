import Discretization.Decimal.Basic

/-!
# Doubles as Exact Ratios

A finite double is an integer times a power of two. `Binary64.classify` reads that exact value off
the bits, and `Binary64.magnitudeOf` goes back: it gives the bits of the double nearest to a ratio,
ties to even, by integer arithmetic alone.

The bits of non-negative doubles, read as natural numbers, are ordered as the doubles are. With
mantissa `m ≤ 2 ^ 53` and exponent `e ≥ -1074` the bits are `(e + 1074) * 2 ^ 52 + m`, for normal
and subnormal numbers alike, and a mantissa that rounds up to `2 ^ 53` carries by itself.
-/

namespace Discretization.Binary64

/-- The exact meaning of a double. -/
inductive Value where
  /-- Not a number. -/
  | nan
  /-- Positive or negative infinity. -/
  | infinite (negative : Bool)
  /-- The number `mantissa * 2 ^ exponent`, with its sign. -/
  | finite (negative : Bool) (mantissa : Nat) (exponent : Int)
  deriving Repr, DecidableEq

/-- The number `2 ^ 52`: the mantissas of normal doubles lie between it and its double. -/
def hiddenBit : Nat := 0x10000000000000

/-- The number `2 ^ 63`: the bit of the minus sign. -/
def signBit : Nat := 0x8000000000000000

/-- The bits of positive infinity; greater magnitudes are not numbers. -/
def infinityBits : Nat := 0x7FF0000000000000

/-- The exact meaning of a double, read off its bits. -/
def classify (x : Float) : Value :=
  let bits := x.toBits.toNat
  let negative := decide (signBit ≤ bits)
  let magnitude := bits % signBit
  if infinityBits < magnitude then .nan
  else if magnitude = infinityBits then .infinite negative
  else
    let field : Nat := magnitude / hiddenBit
    let fraction : Nat := magnitude % hiddenBit
    if field = 0 then .finite negative fraction (-1074)
    else .finite negative (hiddenBit + fraction) ((field : Int) - 1075)

/-- The magnitude `mantissa * 2 ^ exponent` as a ratio. -/
def ratio (mantissa : Nat) (exponent : Int) : Ratio :=
  Ratio.scaleUp ⟨mantissa, 1⟩ 2 exponent

/-- The exponent of the grid of doubles around a positive ratio: the least `e ≥ -1074` for which
the ratio is below `2 ^ 53 * 2 ^ e`. -/
def gridExponent (r : Ratio) : Int :=
  let start : Int := max ((r.num.log2 : Int) - r.den.log2 - 53) (-1074)
  if (r.scaleDown 2 start).floor < 2 * hiddenBit then start else start + 1

/-- The bits of the non-negative double nearest to a ratio, ties to even; ratios beyond the greatest
double give infinity. -/
def magnitudeOf (r : Ratio) : Nat :=
  if r.num = 0 then 0
  else
    let exponent := gridExponent r
    min ((exponent + 1074).toNat * hiddenBit + (r.scaleDown 2 exponent).round) infinityBits

/-- The double with the given sign and magnitude bits. -/
def ofMagnitude (negative : Bool) (magnitude : Nat) : Float :=
  Float.ofBits (UInt64.ofNat (if negative then signBit + magnitude else magnitude))

/-- The double nearest to a signed ratio, ties to even. -/
def ofRatio (negative : Bool) (r : Ratio) : Float :=
  ofMagnitude negative (magnitudeOf r)

/-- The double nearest to a signed decimal, ties to even. -/
def ofDecimal (negative : Bool) (d : Decimal) : Float :=
  ofRatio negative d.toRatio

/-- No double has more significant decimal digits than this, so rounding to as many changes
nothing. -/
def mostDigits : Nat := 800

/-- The double nearest to the decimal that `count ≥ 1` significant digits of `x` give. Zeros,
infinities and NaN stay as they are. -/
def roundSignificant (count : Nat) (x : Float) : Float :=
  match classify x with
  | .finite negative mantissa exponent =>
    if mantissa = 0 then x
    else ofDecimal negative (Decimal.nearest (ratio mantissa exponent) (min count mostDigits))
  | _ => x

end Discretization.Binary64
