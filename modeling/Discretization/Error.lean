import Discretization.Scalar
import Discretization.Label
import Discretization.Ref

/-!
# Errors

Every way in which an operation can fail is a constructor of `Error`, named for its cause. A cause
belongs to a `Category`, which tells a caller how to react, and most causes have a text
(`Error.message?`). Causes without a text are plain misuse of an argument.
-/

namespace Discretization

/-- How a caller should react to an error. -/
inductive Category where
  /-- An input was rejected by a check. -/
  | validation
  /-- A reference does not resolve to a live or transcribed object. -/
  | reference
  /-- Nothing is registered for the requested combination; registering it is the remedy. -/
  | unsupported
  /-- The operation would break something another object depends on. -/
  | invariant
  /-- A plain value is out of its range. -/
  | value
  /-- A key is not in a map. -/
  | key
  /-- A position is outside a list. -/
  | index
  /-- The object does not define the operation. -/
  | notImplemented
  /-- A range is too wide for the numbers in use. -/
  | overflow
  /-- The object lacks a property that the operation reads. -/
  | attribute
  /-- The object is of a type that the operation cannot treat. -/
  | type
  deriving Repr, DecidableEq

/-- The causes of failure. -/
inductive Error (α : Type) where
  -- Domains
  | intervalBounds (lower upper : α)
  | notDistribution (typeName : String)
  | emptyCollection
  | notScalarPart (typeName : String)
  | noBounds (domainKind : String)
  | noDefaultMethod
  | noDistribution
  | noParts
  -- Rounding and settings
  | digitsOutOfRange
  | roundingDigits (digits : Int)
  | notPositive (setting : String) (value : Value)
  | supportCount (count : Int)
  | supportDigits (digits : Int)
  | unusableSeed
  | rangeOverflow
  | unevenShape
  -- Derivative methods and derived supports
  | technique (name : String)
  | lobattoNodes (count : Int)
  | collocationNodes (count : Int)
  | emptyBasis
  | basisInterval (lower upper : α)
  | basisOutside
  | basisLabel (label : Label)
  | tooFewElements (owner : String)
  | noDerivedLabel
  | noDerivedSupports
  -- Generation
  | generatorLabel (label : Label)
  | noGenerator (typeName domainKind : String) (method : Option Label) (registered : List String)
  -- Support maps and labels
  | missingKey (value : α)
  | unlabelled (value : α)
  | notLabel (typeName : String)
  | selectorStored (label : Label)
  -- References
  | notReference
  | foreign (shown modelName : String)
  | wrongKind (expected : List EntityKind) (got : EntityKind)
  | deleted (kind : EntityKind) (index : Int)
  | unknownParameter (index : Int)
  | noObjects
  -- Parameters and supports
  | notScalarDomain (typeName : String)
  | outOfBounds (values : List α) (name : String) (lower upper : α)
  | alreadySupported (name : String)
  | unequalCounts (name : String) (has expected : Nat)
  | measuredSupports (name : String)
  | derivedSupports (name : String)
  | notMethod (typeName : String)
  | notInfo (typeName : String)
  -- Variables, measures and constraints
  | noParameters (name : String)
  | repeatedParameter (name : String)
  | pointArity (name : String) (needed got : Nat)
  | independent (variableName parameterName : String)
  | referenced (name byName : String)
  | measureRows (rows parameters : Nat)
  | missingAxis
  | notPointwise
  | coefficientCount (coefficients points : Nat)
  | repeatedMeasureParameter
  | measureLabel (label : Label)
  | notMeasurable (parameterName : String)
  | trapezoidPoints
  | unboundedDomain
  | noCoefficients (label : Label)
  | sense (text : String)
  | restriction (lower upper : α) (name : String)
  | cyclicMeasure
  -- Derivative equations
  | stencilSupports (technique : String) (needed got : Nat)
  | elementSupports (name : String)
  | noEvaluation
  | noEquations (name : String)
  -- Transcription
  | noTranscription (modelName : String)
  | notTranscribed (described : String)
  | notAtSupport (described : String) (key : List α)
  | unknownReduced (index : Int)
  | reducedDeleted
  | transcribedTwice (key : List α)
  | noQuery (query : String) (kind : EntityKind)
  | noExpression (kind : EntityKind)
  | notInData
  | noEntry
  | outsideList

namespace Error

/-- The category of a cause. -/
def category {α : Type} : Error α → Category
  | noBounds _ | noDefaultMethod => .notImplemented
  | noDistribution | notReference => .attribute
  | noParts | notPointwise => .type
  | digitsOutOfRange | roundingDigits _ | notPositive _ _ | unusableSeed | unevenShape
  | technique _ | generatorLabel _ | transcribedTwice _ | notInData => .value
  | rangeOverflow => .overflow
  | missingKey _ | unlabelled _ | noObjects | noEntry => .key
  | outsideList | missingAxis => .index
  | noDerivedLabel | noDerivedSupports | noGenerator _ _ _ _ | noEvaluation | noQuery _ _
  | noExpression _ => .unsupported
  | measuredSupports _ | derivedSupports _ => .invariant
  | deleted _ _ | unknownParameter _ | noEquations _ | noTranscription _ | notTranscribed _
  | notAtSupport _ _ | unknownReduced _ | reducedDeleted => .reference
  | _ => .validation

variable {α : Type} [Scalar α]

/-- A list of texts in quotes, in brackets. -/
def quotedList (texts : List String) : String :=
  "[" ++ ", ".intercalate (texts.map Text.quoted) ++ "]"

/-- The text of a cause, if it has one. -/
def message? : Error α → Option String
  | intervalBounds lower upper =>
    some (s!"Invalid interval: lower bound {Scalar.text lower} exceeds upper bound "
      ++ Scalar.text upper)
  | notDistribution typeName => some s!"Expected a frozen scipy.stats distribution, got {typeName}"
  | emptyCollection => some "CollectionDomain needs at least one sub-domain"
  | notScalarPart typeName => some s!"CollectionDomain only holds scalar domains, got {typeName}"
  | noBounds domainKind => some s!"Domain kind '{domainKind}' does not define scalar bounds"
  | noDefaultMethod => some ""
  | noDistribution => none
  | noParts => none
  | digitsOutOfRange => none
  | roundingDigits digits => some s!"sig_digits must be positive, got {digits}"
  | notPositive setting value =>
    some s!"Invalid {setting}: {value.shown}. Must be a positive integer"
  | supportCount count => some s!"num_supports must be positive, got {count}"
  | supportDigits digits => some s!"sig_digits must be positive, got {digits}"
  | unusableSeed => none
  | unevenShape => none
  | rangeOverflow => some "high - low range exceeds valid bounds"
  | technique name => some (Text.quoted name ++ " is not a valid FDTechnique")
  | lobattoNodes count => some s!"Gauss-Lobatto needs at least 2 nodes, got {count}"
  | collocationNodes count => some s!"OrthogonalCollocation needs num_nodes >= 2, got {count}"
  | emptyBasis => some "Support basis must contain at least one value."
  | basisInterval lower upper =>
    some s!"Invalid basis interval {Scalar.listText [lower, upper]}."
  | basisOutside =>
    some ("Support basis violate the given lower and upper bounds. "
      ++ "Please specify the appropriate lower bound and upper bounds.")
  | basisLabel label =>
    some s!"Cannot stamp generative supports with selector label {label.text}."
  | tooFewElements owner =>
    some s!"{owner} does not have enough supports for creating generative supports."
  | noDerivedLabel =>
    some "\x60label\x60 not defined for generative support info type GenerativeInfo."
  | noDerivedSupports =>
    some ("\x60make_supports\x60 is not defined for generative support info of type "
      ++ "GenerativeInfo.")
  | generatorLabel label => some s!"Cannot register a generator for selector label {label.text}"
  | noGenerator typeName domainKind method registered =>
    some (s!"No support generator for infinite domains of type '{typeName}' (kind '{domainKind}') "
      ++ s!"with the generation method '{methodText method}'. Registered methods for this kind: "
      ++ s!"{quotedList registered}. To add support, use register_support_generator().")
  | missingKey value => some (Scalar.text value)
  | unlabelled _ => none
  | notLabel typeName => some s!"Expected a SupportLabel, got {typeName}"
  | selectorStored label =>
    some s!"Supports cannot be stored under the selector label {label.text}."
  | notReference => none
  | foreign shown modelName => some s!"{shown} does not belong to model '{modelName}'."
  | wrongKind expected got =>
    some (s!"Expected a reference of kind {expectedText expected}, got {got.name}.")
  | deleted kind index =>
    some s!"Invalid {kind.lowerName} reference {index}, it was likely deleted."
  | unknownParameter index => some s!"Invalid parameter reference {index}."
  | noObjects => none
  | notScalarDomain typeName =>
    some s!"Independent parameters need a scalar domain, got {typeName}"
  | outOfBounds values name lower upper =>
    some (s!"Supports {Scalar.listText values} of '{name}' violate the domain bounds "
      ++ s!"{Scalar.listText [lower, upper]}.")
  | alreadySupported name =>
    some (s!"Unable set supports for '{name}' since it already has supports. Consider using "
      ++ "\x60add_supports\x60 or use \x60force = True\x60 to overwrite the existing supports.")
  | unequalCounts name has expected =>
    some ("Cannot simultaneously query the supports of multiple independent parameters if the "
      ++ "support dimensions do not match while ignoring the combinatorics "
      ++ s!"('{name}' has {has}, expected {expected}). "
      ++ "Try setting \x60use_combinatorics = True\x60.")
  | measuredSupports name =>
    some s!"Cannot delete the supports of '{name}' since it is used by a measure."
  | derivedSupports name =>
    some s!"Cannot delete the supports of '{name}' since a derivative depends on it."
  | notMethod typeName => some s!"Expected a DerivativeMethod, got {typeName}"
  | notInfo typeName => some s!"Expected a GenerativeInfo, got {typeName}"
  | noParameters name => some s!"Infinite variable '{name}' needs at least one parameter."
  | repeatedParameter name => some s!"Infinite variable '{name}' repeats a parameter."
  | pointArity name needed got =>
    some s!"Point variable of '{name}' needs {needed} values, got {got}."
  | independent variableName parameterName =>
    some s!"'{variableName}' does not depend on parameter '{parameterName}'."
  | referenced name byName =>
    some s!"Cannot delete '{name}' since '{byName}' depends on it."
  | measureRows rows parameters =>
    some s!"Measure supports have {rows} rows but {parameters} parameters were given."
  | missingAxis => none
  | notPointwise => none
  | coefficientCount coefficients points =>
    some (s!"Number of coefficients ({coefficients}) does not match the number of support points "
      ++ s!"({points}).")
  | repeatedMeasureParameter => some "Measure parameters must be unique."
  | measureLabel label =>
    some s!"Measure supports cannot be stored under selector label {label.text}."
  | notMeasurable parameterName =>
    some (s!"Measure expression is not parameterized by the parameter '{parameterName}' specified "
      ++ "in the measure data.")
  | trapezoidPoints => some "Trapezoid measure data needs at least 2 supports."
  | unboundedDomain => some "Monte-Carlo measure data needs a bounded domain."
  | noCoefficients label =>
    some s!"Cannot build measure coefficients for method {label.text}."
  | sense text =>
    some ("Invalid constraint sense " ++ Text.quoted text
      ++ ". Must be one of ('<=', '>=', '==')")
  | restriction lower upper name =>
    some s!"Invalid restriction {Scalar.listText [lower, upper]} on '{name}'."
  | cyclicMeasure => none
  | stencilSupports name needed got =>
    some s!"{name} finite difference needs at least {needed} supports, got {got}."
  | elementSupports name =>
    some s!"Orthogonal collocation over '{name}' needs at least 2 supports."
  | noEvaluation =>
    some "Derivative evaluation is not defined for methods of type DerivativeMethod."
  | noEquations name => some s!"Derivative '{name}' has no evaluation equations."
  | noTranscription modelName =>
    some s!"Model '{modelName}' has no transcription. Call build_transcription_model first."
  | notTranscribed described => some s!"{described} not used in transcription."
  | notAtSupport described key =>
    some s!"{described} has no transcription at support {Scalar.tupleText key}."
  | unknownReduced index => some s!"Invalid reduced variable reference {index}."
  | reducedDeleted =>
    some "Invalid reduced variable reference, its infinite variable was likely deleted."
  | transcribedTwice key => some s!"Support {Scalar.tupleText key} is already transcribed"
  | noQuery query kind =>
    some (s!"\x60transcription_{query}\x60 not defined for {query}s with indices of type "
      ++ s!"{kind.name}.")
  | noExpression kind =>
    some s!"Transcription not defined for expression terms with indices of type {kind.name}."
  | notInData => none
  | noEntry => none
  | outsideList => none
where
  /-- The name of a method, if there is one. -/
  methodText : Option Label → String
    | some method => method.text
    | none => "None"
  /-- The names of the expected kinds, in alphabetical order. -/
  expectedText (expected : List EntityKind) : String :=
    ", ".intercalate ((expected.map EntityKind.name).mergeSort fun a b => decide (a ≤ b))

end Error

end Discretization
