import Discretization.DerivativeMethod
import Discretization.Domain
import Discretization.SupportMap

/-!
# Infinite Parameters

A parameter ranges over a scalar domain and owns its supports. Support values are rounded to the
parameter's significant digits before they are compared or stored. Three flags tell whether internal
supports are stored, whether derived supports are in place, and whether derivative equations built
from the current supports are stored on the model.
-/

namespace Discretization

/-- An infinite parameter. -/
structure Parameter (α : Type) where
  /-- The name. -/
  name : String
  /-- The domain. -/
  domain : Domain α
  /-- The significant digits of support values; at least one. -/
  digits : Int
  /-- How derivatives with respect to the parameter are evaluated. -/
  method : DerivativeMethod
  /-- How derived supports arise. -/
  info : GenerativeInfo α
  /-- The stored supports. -/
  supports : SupportMap α := {}
  /-- Whether some stored support carries an internal label. -/
  hasInternal : Bool := false
  /-- Whether derived supports are in place. -/
  hasGenerative : Bool := false
  /-- Whether derivative equations built from the current supports are stored. -/
  hasEquations : Bool := false

end Discretization
