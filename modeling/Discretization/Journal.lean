import Discretization.Text.Quoted

/-!
# Journal

What operations report beside their results: warnings for the user and records for a log, both in
the order in which they were given.
-/

namespace Discretization

/-- A warning for the user. -/
inductive Warning where
  /-- Monte-Carlo supports of a distribution are its own samples. -/
  | unweightedSampling
  /-- Equal support values were given. -/
  | repeatedPoints
  /-- A change of the supports of the named parameter made its stored equations obsolete. -/
  | equationsObsolete (parameterName : String)
  /-- Supports were deleted that stored equations refer to. -/
  | equationsDeleted
  deriving Repr, DecidableEq

/-- The text of a warning. -/
def Warning.text : Warning → String
  | unweightedSampling =>
    "Monte-Carlo supports for a univariate distribution domain are drawn from the distribution "
      ++ "itself (same as WeightedSample), not uniformly over its support. Treat them as an "
      ++ "approximation of unweighted sampling."
  | repeatedPoints => "Support points are not unique, eliminating redundant points."
  | equationsObsolete parameterName =>
    s!"Support change of '{parameterName}' invalidated existing derivative evaluation constraints. "
      ++ "These are being deleted."
  | equationsDeleted =>
    "Deleting supports invalidated derivative evaluations. Thus, these are being deleted as well."

/-- A record of the log. -/
inductive LogRecord where
  /-- A setting of the process environment that is no integer is ignored. -/
  | notInteger (setting raw : String)
  /-- A setting of the process environment that is not positive is ignored. -/
  | notPositive (setting raw : String)
  /-- A model was transcribed. -/
  | transcribed (modelName : String) (vars constraints reduced : Nat)
  deriving Repr, DecidableEq

namespace LogRecord

/-- The level of a record. -/
def level : LogRecord → String
  | transcribed _ _ _ _ => "INFO"
  | _ => "WARNING"

/-- The text of a record. -/
def text : LogRecord → String
  | notInteger setting raw => s!"Ignoring non-integer {setting}=" ++ Text.quoted raw
  | notPositive setting raw => s!"Ignoring non-positive {setting}=" ++ Text.quoted raw
  | transcribed modelName vars constraints reduced =>
    s!"Transcribed model '{modelName}': {vars} variables, {constraints} constraints, "
      ++ s!"{reduced} reduced variables"

end LogRecord

/-- Warnings and log records, each in order. -/
structure Journal where
  /-- The warnings given. -/
  warnings : List Warning := []
  /-- The records logged. -/
  records : List LogRecord := []
  deriving Repr

end Discretization
