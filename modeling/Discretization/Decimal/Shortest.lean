import Discretization.Decimal.Binary64

/-!
# The Shortest Decimal of a Double

The fewest significant digits that read back to the same double, and of those the digits nearest to
its exact value. For each count of digits only the two neighbours of the value on that decimal grid
can qualify: if any point of the grid reads back, one of the neighbours does.
-/

namespace Discretization.Binary64

/-- Whether a decimal reads back to the magnitude with the given bits. -/
def readsBack (magnitude : Nat) (d : Decimal) : Bool :=
  magnitudeOf d.toRatio == magnitude

/-- The decimal with `count` digits that reads back to the given magnitude and is nearest to the
exact value `r`, if one of the two neighbours of `r` reads back. A tie goes to the even digit. -/
def candidate? (magnitude : Nat) (r : Ratio) (count : Nat) : Option Decimal :=
  let exponent := r.decimalExponent - count + 1
  let scaled := r.scaleDown 10 exponent
  let lower : Decimal := ⟨scaled.floor, exponent⟩
  let upper : Decimal := ⟨scaled.floor + 1, exponent⟩
  match readsBack magnitude lower, readsBack magnitude upper with
  | true, true => some (if scaled.round = lower.digits then lower else upper)
  | true, false => some lower
  | false, true => some upper
  | false, false => none

/-- The shortest decimal that reads back to the magnitude with the given bits, whose exact value is
`r`. Seventeen digits always suffice. -/
def shortest (magnitude : Nat) (r : Ratio) : Decimal :=
  (((List.range 17).findSome? fun i => candidate? magnitude r (i + 1)).getD
    (Decimal.nearest r 17)).strip

end Discretization.Binary64
