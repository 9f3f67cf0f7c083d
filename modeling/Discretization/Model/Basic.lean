import Discretization.Equation
import Discretization.Measure
import Discretization.Parameter
import Discretization.Table
import Discretization.Transcription.Data

/-!
# Infinite Models

A model holds everything defined before a transcription: parameters, variables, derivatives,
measures and constraints, the evaluation equations stored for derivatives, and the last
transcription. It is *ready* as long as nothing changed since that transcription.

Objects are looked up by references. A reference is *owned* if it names this model; an owned
reference may still point at nothing.
-/

namespace Discretization

/-- The start value of an infinite variable. -/
inductive Start (α : Type) where
  /-- No start value. -/
  | none
  /-- The same start value everywhere. -/
  | value (x : α)
  /-- A start value computed from the values of the parameters. -/
  | function (f : List α → α)

/-- The start value at a key. -/
def Start.at? {α : Type} : Start α → List α → Option α
  | none, _ => .none
  | value x, _ => some x
  | function f, key => some (f key)

/-- A variable indexed by parameters. -/
structure InfiniteVariable (α : Type) where
  /-- The name. -/
  name : String
  /-- The parameters, each once. -/
  parameters : List Ref
  /-- The lower bound, if there is one. -/
  lower : Option α := none
  /-- The upper bound, if there is one. -/
  upper : Option α := none
  /-- The start value. -/
  start : Start α := .none
  /-- Whether the variable takes whole values only. -/
  integer : Bool := false

/-- An infinite variable at one support of its parameters. -/
structure PointVariable (α : Type) where
  /-- The name. -/
  name : String
  /-- The infinite variable or derivative. -/
  ref : Ref
  /-- One value per parameter. -/
  values : List α

/-- The derivative of an infinite variable or derivative. -/
structure Derivative where
  /-- The name. -/
  name : String
  /-- The infinite variable or derivative that is differentiated. -/
  ref : Ref
  /-- The parameter with respect to which it is differentiated. -/
  parameter : Ref
  /-- All parameters of the variable. -/
  parameters : List Ref

/-- The measure of a function. -/
structure Measure (α : Type) where
  /-- The name. -/
  name : String
  /-- The variable, derivative or measure that is measured. -/
  function : Ref
  /-- The points, coefficients and weights. -/
  data : MeasureData α

/-- A linear constraint over the supports of its parameters. -/
structure Constraint (α : Type) where
  /-- The name. -/
  name : String
  /-- Coefficients with the objects they multiply. -/
  terms : List (α × Ref)
  /-- The relation. -/
  sense : Sense
  /-- The right-hand side. -/
  rhs : α
  /-- Closed boxes for parameters; supports outside are skipped. -/
  restrictions : List (Ref × (α × α)) := []

/-- An object of a model. -/
inductive Object (α : Type) where
  /-- An infinite parameter. -/
  | parameter (p : Parameter α)
  /-- A variable indexed by parameters. -/
  | infiniteVariable (v : InfiniteVariable α)
  /-- A variable without parameters. -/
  | finiteVariable (v : FiniteVariable α)
  /-- An infinite variable at one point. -/
  | pointVariable (v : PointVariable α)
  /-- A derivative. -/
  | derivative (d : Derivative)
  /-- A measure. -/
  | measure (m : Measure α)
  /-- A constraint. -/
  | constraint (c : Constraint α)

/-- The name of an object. -/
def Object.name {α : Type} : Object α → String
  | parameter p => p.name
  | infiniteVariable v => v.name
  | finiteVariable v => v.name
  | pointVariable v => v.name
  | derivative d => d.name
  | measure m => m.name
  | constraint c => c.name

/-- A model before its transcription. -/
structure Model (α : Type) where
  /-- The number by which references name the model. -/
  id : Nat
  /-- The name. -/
  name : String := "model"
  /-- The parameters. -/
  parameters : Table (Parameter α) := {}
  /-- The infinite variables. -/
  infiniteVariables : Table (InfiniteVariable α) := {}
  /-- The finite variables. -/
  finiteVariables : Table (FiniteVariable α) := {}
  /-- The point variables. -/
  pointVariables : Table (PointVariable α) := {}
  /-- The derivatives. -/
  derivatives : Table Derivative := {}
  /-- The measures. -/
  measures : Table (Measure α) := {}
  /-- The constraints. -/
  constraints : Table (Constraint α) := {}
  /-- The stored evaluation equations by the index of their derivative. -/
  equations : List (Nat × List (Equation α)) := []
  /-- Whether nothing changed since the last transcription. -/
  ready : Bool := false
  /-- The last transcription. -/
  transcription : Option (Transcription α) := none

/-- What depends on a parameter. -/
structure Usage where
  /-- Whether an infinite variable is indexed by it. -/
  byVariable : Bool := false
  /-- Whether a measure integrates over it. -/
  byMeasure : Bool := false
  /-- Whether a derivative is taken with respect to it. -/
  byDerivative : Bool := false
  /-- Whether a constraint has it as a term or restricts it. -/
  byConstraint : Bool := false
  /-- The derivatives with respect to it. -/
  derivatives : List Ref := []
  deriving Repr

/-- Whether anything depends on the parameter. -/
def Usage.any (u : Usage) : Bool :=
  u.byVariable || u.byMeasure || u.byDerivative || u.byConstraint

namespace Model

variable {α : Type}

/-- The live indices of a kind, in the order of creation. -/
def indices (m : Model α) : EntityKind → List Nat
  | .parameter => m.parameters.indices
  | .infiniteVariable => m.infiniteVariables.indices
  | .finiteVariable => m.finiteVariables.indices
  | .pointVariable => m.pointVariables.indices
  | .derivative => m.derivatives.indices
  | .measure => m.measures.indices
  | .reducedVariable => []
  | .constraint => m.constraints.indices

/-- The reference to an object of this model. -/
def ref (m : Model α) (kind : EntityKind) (index : Nat) : Ref :=
  ⟨m.id, kind, index⟩

/-- The live references of a kind, in the order of creation. -/
def liveRefs (m : Model α) (kind : EntityKind) : List Ref :=
  (m.indices kind).map (m.ref kind)

/-- The live references of a kind. Reduced variables belong to a transcription and are no objects of
the model. -/
def refs (m : Model α) (kind : EntityKind) : Except (Error α) (List Ref) :=
  if kind = .reducedVariable then throw .noObjects else pure (m.liveRefs kind)

/-- The live object at an owned reference. -/
def find? (m : Model α) (ref : Ref) : Option (Object α) :=
  match ref.kind with
  | .parameter => (m.parameters.get? ref.index).map .parameter
  | .infiniteVariable => (m.infiniteVariables.get? ref.index).map .infiniteVariable
  | .finiteVariable => (m.finiteVariables.get? ref.index).map .finiteVariable
  | .pointVariable => (m.pointVariables.get? ref.index).map .pointVariable
  | .derivative => (m.derivatives.get? ref.index).map .derivative
  | .measure => (m.measures.get? ref.index).map .measure
  | .reducedVariable => none
  | .constraint => (m.constraints.get? ref.index).map .constraint

/-- The reference that was passed, if it is a reference to this model. -/
def owned (m : Model α) : Handle → Except (Error α) Ref
  | .given ref =>
    if ref.model = m.id then pure ref else throw (.foreign ref.shown m.name)
  | .mistyped value => throw (.foreign value.shown m.name)

/-- The reference that was passed, if it is a reference to this model of one of the given kinds. -/
def ownedOf (m : Model α) (kinds : List EntityKind) (h : Handle) : Except (Error α) Ref := do
  let ref ← m.owned h
  if ref.kind ∈ kinds then return ref else throw (.wrongKind kinds ref.kind)

/-- The object at a reference. -/
def object (m : Model α) (h : Handle) : Except (Error α) (Object α) := do
  let ref ← m.owned h
  match m.find? ref with
  | some object => return object
  | none => throw (.deleted ref.kind ref.index)

/-- Whether a reference points at a live object of this model. -/
def isValid (m : Model α) : Handle → Bool
  | .given ref => ref.model = m.id && (m.find? ref).isSome
  | .mistyped _ => false

/-- The parameter at a reference. -/
def parameter (m : Model α) (h : Handle) : Except (Error α) (Parameter α) := do
  let ref ← m.ownedOf [.parameter] h
  match m.parameters.get? ref.index with
  | some p => return p
  | none => throw (.deleted ref.kind ref.index)

/-- The reference to a live parameter. -/
def parameterRef (m : Model α) (h : Handle) : Except (Error α) Ref := do
  let ref ← m.ownedOf [.parameter] h
  let _ ← m.parameter h
  return ref

/-- The name and the parameters of an infinite variable or derivative. -/
def indexed (m : Model α) (ref : Ref) : Except (Error α) (String × List Ref) := do
  match ← m.object ref with
  | .infiniteVariable v => return (v.name, v.parameters)
  | .derivative d => return (d.name, d.parameters)
  | _ => throw (.wrongKind [.infiniteVariable, .derivative] ref.kind)

/-- The measure at a reference. -/
def measure (m : Model α) (ref : Ref) : Except (Error α) (Measure α) := do
  match ← m.object ref with
  | .measure measure => return measure
  | _ => throw (.wrongKind [.measure] ref.kind)

/-- The derivative at a reference. -/
def derivative (m : Model α) (ref : Ref) : Except (Error α) Derivative := do
  match ← m.object ref with
  | .derivative d => return d
  | _ => throw (.wrongKind [.derivative] ref.kind)

/-- The constraint at a reference. -/
def constraint (m : Model α) (ref : Ref) : Except (Error α) (Constraint α) := do
  match ← m.object ref with
  | .constraint c => return c
  | _ => throw (.wrongKind [.constraint] ref.kind)

/-- The point variable at a reference. -/
def pointVariable (m : Model α) (ref : Ref) : Except (Error α) (PointVariable α) := do
  match ← m.object ref with
  | .pointVariable v => return v
  | _ => throw (.wrongKind [.pointVariable] ref.kind)

/-- The finite variable at a reference. -/
def finiteVariable (m : Model α) (ref : Ref) : Except (Error α) (FiniteVariable α) := do
  match ← m.object ref with
  | .finiteVariable v => return v
  | _ => throw (.wrongKind [.finiteVariable] ref.kind)

/-- The parameters that a variable, derivative or measure is indexed by. A measure drops the
measured parameters from those of its function. -/
def functionParameters (m : Model α) (ref : Ref) : Except (Error α) (List Ref) := do
  match ref.kind with
  | .parameter => return [ref]
  | .finiteVariable | .pointVariable => return []
  | .measure =>
    let measure ← m.measure ref
    if _h : measure.function.rank < ref.rank then
      let parameters ← m.functionParameters measure.function
      return parameters.filter fun p => p ∉ measure.data.parameters
    else throw .cyclicMeasure
  | _ => return (← m.indexed ref).2
termination_by ref.rank

/-- The position of a parameter in the order of the model. -/
def parameterPosition (m : Model α) (h : Handle) : Except (Error α) Nat := do
  let ref ← m.ownedOf [.parameter] h
  match m.parameters.rows.findIdx? fun row => (row.1 : Int) = ref.index with
  | some position => return position
  | none => throw (.unknownParameter ref.index)

/-- The given parameters without repetitions, in the order of the model. -/
def sortParameters (m : Model α) (handles : List Handle) : Except (Error α) (List Ref) := do
  let refs ← handles.mapM fun h => do
    let _ ← m.parameterPosition h
    m.owned h
  return (m.liveRefs .parameter).filter (· ∈ refs)

/-- The parameters that an object is indexed by. A constraint has those of all its terms, in the
order of the model. -/
def parametersOf (m : Model α) (ref : Ref) : Except (Error α) (List Ref) := do
  match ref.kind with
  | .constraint =>
    let terms := (← m.constraint ref).terms
    let parameters ← terms.mapM fun (_, term) => m.functionParameters term
    m.sortParameters (parameters.flatten.map .given)
  | _ => m.functionParameters ref

/-- Whether an infinite variable is indexed by a parameter. -/
def usedByVariable (m : Model α) (p : Ref) : Bool :=
  m.infiniteVariables.objects.any fun v => p ∈ v.parameters

/-- Whether a measure integrates over a parameter. -/
def usedByMeasure (m : Model α) (p : Ref) : Bool :=
  m.measures.objects.any fun measure => p ∈ measure.data.parameters

/-- Whether a derivative is taken with respect to a parameter. -/
def usedByDerivative (m : Model α) (p : Ref) : Bool :=
  m.derivatives.objects.any fun d => d.parameter = p

/-- Whether a constraint has an object as a term or restricts it. -/
def usedByConstraint (m : Model α) (p : Ref) : Bool :=
  m.constraints.objects.any fun c =>
    c.terms.any (·.2 = p) || c.restrictions.any (·.1 = p)

/-- The derivatives with respect to a parameter. -/
def derivativesOf (m : Model α) (p : Ref) : List Ref :=
  (m.derivatives.rows.filter fun row => row.2.parameter = p).map fun row =>
    m.ref .derivative row.1

/-- What depends on a parameter. Nothing depends on a value that is not a reference. -/
def usage (m : Model α) : Handle → Usage
  | .given p =>
    { byVariable := m.usedByVariable p, byMeasure := m.usedByMeasure p,
      byDerivative := m.usedByDerivative p, byConstraint := m.usedByConstraint p,
      derivatives := m.derivativesOf p }
  | .mistyped _ => {}

/-- Whether a variable, measure, derivative or constraint depends on a parameter. -/
def isUsed (m : Model α) (p : Ref) : Bool :=
  (m.usage p).any

/-- The stored equations of a derivative. -/
def equations? (m : Model α) (derivative : Int) : Option (List (Equation α)) :=
  (m.equations.find? fun row => (row.1 : Int) = derivative).map (·.2)

/-- The last transcription, which must exist. -/
def transcribed (m : Model α) : Except (Error α) (Transcription α) :=
  match m.transcription with
  | some t => pure t
  | none => throw (.noTranscription m.name)

/-- The reduced variable at a reference; the variable it reduces must be live. -/
def reducedVariable (m : Model α) (ref : Ref) : Except (Error α) (ReducedVariable α) := do
  let t ← m.transcribed
  if ref.kind ≠ .reducedVariable ∨ ref.index < 0 then throw (.unknownReduced ref.index)
  match t.reduced[ref.index.toNat]? with
  | none => throw (.unknownReduced ref.index)
  | some r => if m.isValid r.ref then return r else throw .reducedDeleted

variable [Scalar α]

/-- The name of a reduced variable: the variable with its parameters, the fixed ones replaced by
their values. -/
def reducedName (m : Model α) (r : ReducedVariable α) : Except (Error α) String := do
  let (name, parameters) ← m.indexed r.ref
  let arguments ← parameters.mapM fun (p : Ref) =>
    match r.fixed.find? (·.1 = p) with
    | some (_, value) => pure (Scalar.text value)
    | none => return (← m.parameter p).name
  return name ++ "(" ++ ", ".intercalate arguments ++ ")"

/-- The name of the object at a reference. -/
def nameOf (m : Model α) (ref : Ref) : Except (Error α) String := do
  if ref.kind = .reducedVariable then m.reducedName (← m.reducedVariable ref)
  else return (← m.object ref).name

/-- How messages describe a reference: by its name, or by its kind and index if it has none. -/
def describe (m : Model α) (ref : Ref) : String :=
  match m.nameOf ref with
  | .ok name => s!"'{name}'"
  | .error _ => s!"{ref.kind.lowerName} {ref.index}"

/-- The model as text: its name and the number of objects of each kind that has any. -/
def text (m : Model α) : String :=
  let counts := EntityKind.kinds.filterMap fun kind =>
    let count := (m.indices kind).length
    if count = 0 then none else some s!", {kind.lowerName}={count}"
  "InfiniteModel(" ++ Text.quoted m.name ++ String.join counts ++ ")"

end Model

end Discretization
