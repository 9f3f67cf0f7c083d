import Discretization.Evaluation
import Discretization.Model.Edit

/-!
# Building up a Model

Additions and deletions that also touch supports: parameters get their first supports, point
variables and measures store the supports they are defined at, and deleting a measure takes its own
supports away.
-/

namespace Discretization.Modeling

open Operation

variable {α : Type} [Scalar α]

/-- Adds a parameter over a scalar domain, with the given supports, or else with as many generated
ones as asked for. -/
def addParameter (domain : Domain α) (name : String) (supports : Option (List α)) (count : Int)
    (digits : Option Int) (method : DerivativeMethod) : Operation α Ref := do
  let digits ← match digits with
    | some digits => pure digits
    | none => onEnvironment Environment.defaultDigits
  if digits < 1 then throw (.supportDigits digits)
  if let .error _ := domain.bounds then throw (.notScalarDomain domain.typeName)
  let name := nameOr name s!"param{(← model).parameters.next}"
  let p ← change fun m =>
    pure (m.pushParameter { name, domain, digits, method, info := method.generativeInfo })
  match supports with
  | some values => Store.set p values (.given .userDefined) false
  | none => if count ≠ 0 then Store.fillIn p (some count) true none
  return p

/-- Adds an infinite variable or derivative at one point. The rounded values become supports of the
parameters; all are checked before the first is stored. -/
def addPointVariable (variableRef : Handle) (values : List α) (name : String) :
    Operation α Ref := do
  let ref ← query (·.ownedOf [.infiniteVariable, .derivative] variableRef)
  let (variableName, parameters) ← query (·.indexed ref)
  if values.length ≠ parameters.length then
    throw (.pointArity variableName parameters.length values.length)
  let rounded ← (parameters.zip values).mapM fun (p, value) =>
    query (·.checkSupports p [value] (.given .userDefined))
  let values := rounded.flatten
  for (p, value) in parameters.zip values do
    let _ ← Store.add p [value] (.given .userDefined) false
  let name := nameOr name
    (variableName ++ "(" ++ ", ".intercalate (values.map Scalar.text) ++ ")")
  change fun m => pure (m.pushPointVariable { name, ref, values })

/-- Adds a measure of a variable, derivative or measure. Its points become supports of the measured
parameters under the label of the data; all are checked before the first is stored. -/
def addMeasure (function : Handle) (data : MeasureData α) (name : String) : Operation α Ref := do
  let ref ← query (·.ownedOf [.infiniteVariable, .derivative, .finiteVariable, .pointVariable,
    .measure] function)
  let functionParameters ← query (·.parametersOf ref)
  for p in data.parameters do
    let parameter ← query (·.parameter p)
    if p ∉ functionParameters then throw (.notMeasurable parameter.name)
  let rows ← (data.parameters.zip data.supports).mapM fun (p, row) =>
    query (·.checkSupports p row (.given data.label))
  for (p, row) in data.parameters.zip rows do
    let _ ← Store.add p row (.given data.label) false
  let functionName ← if name.isEmpty then query (·.nameOf ref) else pure ""
  change fun m => pure (m.pushMeasure
    { name := nameOr name s!"{data.name}({functionName})", function := ref, data })

/-- Deletes a measure that nothing depends on. A label of its own is stripped from the measured
parameters. -/
def deleteMeasure (h : Handle) : Operation α Unit := do
  let ref ← query (·.ownedOf [.measure] h)
  let measure ← query (·.measure ref)
  query (·.checkUnreferenced ref measure.name [.measure, .constraint])
  modifyModel fun m => { m with measures := m.measures.erase ref.index }
  if measure.data.label.kind = .uniqueMeasure then
    for p in measure.data.parameters do
      Store.delete p measure.data.label
  modifyModel (·.markStale)

/-- Measure data under a label, or under a fresh one. -/
def measureData (parameters : List Ref) (coefficients : List α) (supports : Tensor α)
    (label : Option Label) (weight : Weight α) (name : String) : Operation α (MeasureData α) := do
  let label ← match label with
    | some label => pure label
    | none => onEnvironment Environment.freshLabel
  check (MeasureData.make? parameters coefficients supports label weight name)

/-- The coefficients of generated points: the trapezoid rule on a grid, the width of the domain in
equal parts for Monte-Carlo samples, and equal parts of one for the samples of a distribution. -/
def coefficients (domain : Domain α) (label : Label) (values : List α) :
    Except (Error α) (List α) := do
  let count : α := Scalar.ofNat values.length
  if label = .uniformGrid then
    if values.length < 2 then throw .trapezoidPoints
    return trapezoidWeights values
  else if label = .monteCarlo then
    let (lower, upper) ← domain.bounds
    if !(Scalar.isFinite lower && Scalar.isFinite upper) then throw .unboundedDomain
    return values.map fun _ => (upper - lower) / count
  else if label = .weightedSample then
    return values.map fun _ => 1 / count
  else throw (.noCoefficients label)

/-- Measure data over one parameter from generated points. -/
def uniformMeasureData (p : Ref) (count : Option Int) (method : Option Label) (name : String)
    (source : Option Nat) : Operation α (MeasureData α) := do
  let parameter ← query (·.parameter p)
  let count ← match count with
    | some count => pure count
    | none => onEnvironment Environment.defaultCount
  let (values, label) ← onEnvironment
    (Generation.generate parameter.domain method (some count) (some parameter.digits) source)
  let coefficients ← check (coefficients parameter.domain label values.entries)
  measureData [p] coefficients (Tensor.vector values.entries) none Weight.unit name

end Discretization.Modeling
