import Discretization.Scalar
import Discretization.Decimal.Layout

/-!
# Doubles as Scalars

The scalars that run: IEEE doubles, rounded and printed by exact decimal arithmetic on their bits.
-/

namespace Discretization

instance : Scalar Float where
  zero := 0
  one := 1
  decidableLT := inferInstance
  decidableLE := inferInstance
  isFinite := Float.isFinite
  ofRatio num den := Binary64.ofRatio (decide (num < 0)) ⟨num.natAbs, den⟩
  roundSignificant := Binary64.roundSignificant
  text := Binary64.text
  coefficientText := Binary64.coefficientText

end Discretization
