import Discretization.Workspace

/-!
# Edits of a Model

Additions and deletions that are checked as a whole before anything is changed: they either give the
changed model or fail and leave it alone. What also touches supports is in
`Discretization.Modeling`.
-/

namespace Discretization

variable {α : Type}

/-- Pairs in which a reference given again has its last value at its first place. -/
def lastOf {β : Type} (pairs : List (Handle × β)) : List (Handle × β) :=
  pairs.foldl insertPair []
where
  /-- Whether two arguments are the same reference. -/
  same : Handle → Handle → Bool
    | .given a, .given b => a = b
    | _, _ => false
  /-- Sets the value of a reference. -/
  insertPair (pairs : List (Handle × β)) (pair : Handle × β) : List (Handle × β) :=
    if pairs.any fun (h, _) => same h pair.1 then
      pairs.map fun (h, b) => if same h pair.1 then (h, pair.2) else (h, b)
    else pairs ++ [pair]

/-- A name, or another one if it is empty. -/
def nameOr (name fallback : String) : String :=
  if name.isEmpty then fallback else name

namespace Model

/-- Adds a parameter. -/
def pushParameter (m : Model α) (p : Parameter α) : Ref × Model α :=
  (m.ref .parameter m.parameters.next, { m with parameters := m.parameters.push p }.markStale)

/-- Adds a point variable. -/
def pushPointVariable (m : Model α) (v : PointVariable α) : Ref × Model α :=
  (m.ref .pointVariable m.pointVariables.next,
    { m with pointVariables := m.pointVariables.push v }.markStale)

/-- Adds a measure. -/
def pushMeasure (m : Model α) (measure : Measure α) : Ref × Model α :=
  (m.ref .measure m.measures.next, { m with measures := m.measures.push measure }.markStale)

/-- Adds a variable indexed by at least one parameter and by none twice. -/
def addInfiniteVariable (m : Model α) (name : String) (parameters : List Handle)
    (lower upper : Option α) (start : Start α) (integer : Bool) :
    Except (Error α) (Ref × Model α) := do
  if parameters.isEmpty then throw (.noParameters name)
  let parameters ← parameters.mapM m.parameterRef
  if ¬ parameters.Nodup then throw (.repeatedParameter name)
  return (m.ref .infiniteVariable m.infiniteVariables.next,
    { m with infiniteVariables :=
        m.infiniteVariables.push { name, parameters, lower, upper, start, integer } }.markStale)

/-- Adds a variable that depends on no parameter. -/
def addFiniteVariable (m : Model α) (v : FiniteVariable α) : Ref × Model α :=
  (m.ref .finiteVariable m.finiteVariables.next,
    { m with finiteVariables := m.finiteVariables.push v }.markStale)

/-- Adds the derivative of an infinite variable or derivative with respect to one of its parameters.
`parameterName` is how the parameter is named where it belongs. -/
def addDerivative (m : Model α) (variableRef : Handle) (p : Ref) (name : String)
    (parameterName : Except (Error α) String) : Except (Error α) (Ref × Model α) := do
  let ref ← m.ownedOf [.infiniteVariable, .derivative] variableRef
  let (variableName, parameters) ← m.indexed ref
  if p ∉ parameters then throw (.independent variableName (← parameterName))
  let parameter ← m.parameter p
  let derivative : Derivative :=
    { name := nameOr name s!"d{variableName}/d{parameter.name}", ref, parameter := p, parameters }
  return (m.ref .derivative m.derivatives.next,
    { m with derivatives := m.derivatives.push derivative }.markStale)

/-- The names of the live objects of a kind, each with the references that the object depends on. -/
def dependencies (m : Model α) : EntityKind → List (String × List Ref)
  | .derivative => m.derivatives.objects.map fun d => (d.name, [d.ref])
  | .measure => m.measures.objects.map fun measure => (measure.name, [measure.function])
  | .constraint => m.constraints.objects.map fun c => (c.name, c.terms.map (·.2))
  | .pointVariable => m.pointVariables.objects.map fun v => (v.name, [v.ref])
  | _ => []

/-- Checks that no object of the given kinds depends on a reference. -/
def checkUnreferenced (m : Model α) (ref : Ref) (name : String) (kinds : List EntityKind) :
    Except (Error α) Unit :=
  match (kinds.flatMap m.dependencies).find? fun (_, refs) => ref ∈ refs with
  | some (byName, _) => throw (.referenced name byName)
  | none => pure ()

/-- Deletes a derivative that nothing depends on, with its stored equations. -/
def deleteDerivative (m : Model α) (h : Handle) : Except (Error α) (Unit × Model α) := do
  let ref ← m.ownedOf [.derivative] h
  let derivative ← m.derivative ref
  m.checkUnreferenced ref derivative.name [.derivative, .measure, .constraint, .pointVariable]
  let m := m.dropEquations ref.index
  let m := { m with derivatives := m.derivatives.erase ref.index }
  let _ ← m.parameter derivative.parameter
  let stored := (m.derivativesOf derivative.parameter).any fun d => (m.equations? d.index).isSome
  let m := if stored then m
    else m.modifyParameter derivative.parameter fun q => { q with hasEquations := false }
  return ((), m.markStale)

/-- Adds a linear constraint. Its terms may be parameters, variables, derivatives and measures; the
restriction given last for a parameter counts. -/
def addConstraint [Scalar α] (m : Model α) (terms : List (α × Handle)) (sense : String) (rhs : α)
    (name : String) (restrictions : List (Handle × (α × α))) :
    Except (Error α) (Ref × Model α) := do
  let relation ← match Sense.ofText sense with
    | .other text => throw (.sense text)
    | relation => pure relation
  let terms ← terms.mapM fun (coefficient, h) => do
    let ref ← m.ownedOf [.parameter, .infiniteVariable, .derivative, .finiteVariable,
      .pointVariable, .measure] h
    let _ ← m.object h
    return (coefficient, ref)
  let restrictions ← (lastOf restrictions).mapM fun (h, lower, upper) => do
    let parameter ← m.parameter h
    let ref ← m.parameterRef h
    if upper < lower then throw (.restriction lower upper parameter.name)
    return (ref, lower, upper)
  let object : Constraint α :=
    { name := nameOr name s!"c{m.constraints.next}", terms, sense := relation, rhs, restrictions }
  return (m.ref .constraint m.constraints.next,
    { m with constraints := m.constraints.push object }.markStale)

/-- Deletes a constraint. -/
def deleteConstraint (m : Model α) (h : Handle) : Except (Error α) (Unit × Model α) := do
  let ref ← m.ownedOf [.constraint] h
  let _ ← m.constraint ref
  return ((), { m with constraints := m.constraints.erase ref.index }.markStale)

end Model

end Discretization
