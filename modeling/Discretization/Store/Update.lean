import Discretization.Generation
import Discretization.Store.Query
import Discretization.Workspace

/-!
# Changes of Supports

All changes of stored supports, and of what depends on them. A new or removed value makes derived
supports and stored derivative equations obsolete, so both are taken away, and the model is no
longer ready if something depends on the parameter. The order of the steps of each operation is
fixed, because an operation that fails keeps the steps before the failure.
-/

namespace Discretization.Store

open Operation

variable {α : Type} [Scalar α]

/-- Takes away the stored equations of the derivatives with respect to a parameter, if there are
any, with a warning. -/
def resetEquations (p : Ref) : Operation α Unit := do
  let parameter ← query (·.parameter p)
  if parameter.hasEquations then
    warn (.equationsObsolete parameter.name)
    modifyModel fun m => (m.dropEquationsOf p).markStale

/-- Deletes supports of a parameter under a label. The selector of all removes every support, unless
a measure or a derivative depends on the parameter. Any other label is stripped, together with the
label of derived supports if these are in place, and supports without another label are removed. -/
def delete (p : Ref) (label : Label) : Operation α Unit := do
  let parameter ← query (·.parameter p)
  let m ← model
  if label = .all then
    if m.usedByMeasure p then throw (.measuredSupports parameter.name)
    if m.usedByDerivative p then throw (.derivedSupports parameter.name)
  if parameter.hasEquations then
    warn .equationsDeleted
    modifyModel (·.dropEquationsOf p)
  if label = .all then
    modifyModel (·.modifyParameter p fun q =>
      { q with supports := .empty, hasGenerative := false, hasInternal := false })
  else
    let derived ← check parameter.info.label
    let selectors :=
      if parameter.hasGenerative && derived != label then [label, derived] else [label]
    let (supports, failed) := parameter.supports.strip selectors
    modifyModel (·.modifyParameter p fun q => { q with supports, hasGenerative := false })
    if let some value := failed then throw (.missingKey value)
    modifyModel (·.modifyParameter p fun q =>
      { q with hasInternal := q.hasInternal && supports.hasInternal })
  modifyModel (·.markStaleIfUsed p)

/-- Takes away the derived supports of a parameter, if they are in place. -/
def resetGenerative (p : Ref) : Operation α Unit := do
  let parameter ← query (·.parameter p)
  if parameter.hasGenerative then
    delete p (← check parameter.info.label)

/-- Replaces the supports of a parameter. Supports that are there already are only replaced by
force. -/
def set (p : Ref) (values : List α) (label : Argument Label) (force : Bool) : Operation α Unit := do
  let parameter ← query (·.parameter p)
  let label ← check (Label.storable label)
  if parameter.supports.size > 0 && !force then throw (.alreadySupported parameter.name)
  let rounded ← check (parameter.round values)
  check (parameter.checkBounds rounded)
  let (_, supports) := SupportMap.empty.addAll rounded label
  if supports.size ≠ rounded.length then warn .repeatedPoints
  modifyModel (·.modifyParameter p fun q => { q with supports })
  resetEquations p
  modifyModel (·.modifyParameter p fun q =>
    { q with hasGenerative := false, hasInternal := label.internal })
  modifyModel (·.markStaleIfUsed p)

/-- Adds values to the supports of a parameter under a label; the result tells whether any of them
is new. Stored values gain the label. -/
def add (p : Ref) (values : List α) (label : Argument Label) (checked : Bool) :
    Operation α Bool := do
  let parameter ← query (·.parameter p)
  let label ← check (Label.storable label)
  let rounded ← check (parameter.round values)
  if checked then check (parameter.checkBounds rounded)
  let (anyNew, supports) := parameter.supports.addAll rounded label
  modifyModel (·.modifyParameter p fun q =>
    { q with supports, hasInternal := q.hasInternal || label.internal })
  if anyNew then
    resetEquations p
    resetGenerative p
    modifyModel (·.markStaleIfUsed p)
  return anyNew

/-- Generates supports and adds them. Without a method, an interval that has supports already is
sampled, and any other domain uses its default method. -/
def generateAndAdd (p : Ref) (method : Option Label) (count : Option Int) (extra : Bool)
    (source : Option Nat) : Operation α Bool := do
  let parameter ← query (·.parameter p)
  let method :=
    if method.isNone && extra && parameter.domain.kind = intervalKind then some .monteCarlo
    else method
  let (values, label) ← onEnvironment
    (Generation.generate parameter.domain method count (some parameter.digits) source)
  add p values.entries (.given label) true

/-- Generates as many supports as a parameter lacks. A parameter that has some is left alone unless
`extend` is set. -/
def fillIn (p : Ref) (count : Option Int) (extend : Bool) (source : Option Nat) :
    Operation α Unit := do
  let count ← match count with
    | some count => pure count
    | none => onEnvironment Environment.defaultCount
  let current : Int := (← query (·.parameter p)).supports.size
  if (extend || current = 0) && current < count then
    let _ ← generateAndAdd p none (some (count - current)) (0 < current) source

/-- Puts the derived supports of a parameter in place, if they are missing. -/
def addGenerative (p : Ref) : Operation α Unit := do
  let parameter ← query (·.parameter p)
  if parameter.hasGenerative then return
  match parameter.info with
  | .none => return
  | info =>
    let label ← check info.label
    let derived ← check
      (info.makeSupports (parameter.supports.baseValues label) s!"'{parameter.name}'")
    let _ ← add p derived (.given label) false
    modifyModel (·.modifyParameter p fun q => { q with hasGenerative := true })

/-- Replaces the way in which supports are derived; derived supports in place are taken away. -/
def setInfo (p : Ref) (info : Argument (GenerativeInfo α)) : Operation α Unit := do
  match info with
  | .mistyped value => throw (.notInfo value.typeName)
  | .given info =>
    resetGenerative p
    let _ ← query (·.parameter p)
    modifyModel (·.modifyParameter p fun q => { q with info })
    modifyModel (·.markStaleIfUsed p)

/-- Sets the derivative method of a parameter. The way in which supports are derived follows the
method; stored equations and derived supports are taken away. -/
def setMethod (p : Ref) (method : Argument DerivativeMethod) : Operation α Unit := do
  match method with
  | .mistyped value => throw (.notMethod value.typeName)
  | .given method =>
    let _ ← query (·.parameter p)
    resetEquations p
    resetGenerative p
    modifyModel (·.modifyParameter p fun q => { q with method, info := method.generativeInfo })
    modifyModel (·.markStaleIfUsed p)

end Discretization.Store
