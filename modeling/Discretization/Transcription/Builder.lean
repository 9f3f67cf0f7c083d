import Discretization.Modeling
import Discretization.Transcription.Coordinate

/-!
# Building a Transcription

Every object of a model is expanded over the supports of its parameters. Finite variables come
first, then infinite variables and derivatives at every combination of supports, point variables,
measures, constraints, and the evaluation equations of derivatives. A counterpart is made once:
whoever refers to an infinite variable at a key gets the same finite variable. Keys are lists of
coordinates, which keep their numbers alone when the transcription is complete.

The builder reads the model and changes only the transcription it builds.
-/

namespace Discretization

/-- A step of a transcription. -/
abbrev Building (α β : Type) := EStateM (Error α) (Transcription α (Coordinate α)) β

/-- Coordinates of parameters; the first coordinate of a parameter counts. -/
abbrev Point (κ : Type) := List (Ref × κ)

namespace Point

/-- The coordinate of a parameter. -/
def get? {κ : Type} (point : Point κ) (parameter : Ref) : Option κ :=
  (point.find? (·.1 = parameter)).map (·.2)

/-- The coordinates of parameters, which must all have one. -/
def key {α κ : Type} (point : Point κ) (parameters : List Ref) : Except (Error α) (List κ) :=
  parameters.mapM fun p =>
    match point.get? p with
    | some coordinate => pure coordinate
    | none => throw .noEntry

/-- The point with the coordinates of some parameters replaced. -/
def override {κ : Type} (point : Point κ) (parameters : List Ref) (coordinates : List κ) :
    Point κ :=
  parameters.zip coordinates ++ point

/-- Whether the coordinates lie in the boxes of all restrictions; a parameter without a coordinate
is not restricted. -/
def satisfies {α : Type} [Scalar α] (point : Point (Coordinate α))
    (restrictions : List (Ref × (α × α))) : Bool :=
  restrictions.all fun (p, lower, upper) =>
    match point.get? p with
    | some coordinate => Scalar.between lower upper coordinate.value
    | none => true

end Point

namespace Building

variable {α : Type} [Scalar α]

/-- A check that may fail and changes nothing. -/
def check {β : Type} (result : Except (Error α) β) : Building α β :=
  match result with
  | .ok b => pure b
  | .error e => throw e

/-- Every combination of the supports of parameters, the last parameter varying fastest. -/
def keys (parameters : List Ref) : Building α (List (List (Coordinate α))) := do
  let snapshot := (← get).snapshot
  let axes ← parameters.mapM fun p =>
    return Coordinate.axis parameters (← check (snapshot.values p))
  return combinations axes

/-- The name of a counterpart: the name of its object with the support values, or with the number of
the support. -/
def counterpartName (verbose : Bool) (base : String) (key : List (Coordinate α)) (position : Nat) :
    String :=
  if key.isEmpty then base
  else if verbose then base ++ "(" ++ ", ".intercalate (key.map (Scalar.text ·.value)) ++ ")"
  else s!"{base}(support: {position + 1})"

/-- The entry of a variable, put in place if it is missing. -/
def variableEntry (ref : Ref) (parameters : List Ref) : Building α (Entry (Coordinate α) Nat) := do
  match (← get).vars.get? ref with
  | some entry => return entry
  | none =>
    let entry : Entry (Coordinate α) Nat := { parameters }
    modify fun t => { t with vars := t.vars.set ref entry }
    return entry

/-- The entry of a measure, put in place if it is missing. -/
def measureEntry (ref : Ref) (parameters : List Ref) :
    Building α (Entry (Coordinate α) (Expression α)) := do
  match (← get).measures.get? ref with
  | some entry => return entry
  | none =>
    let entry : Entry (Coordinate α) (Expression α) := { parameters }
    modify fun t => { t with measures := t.measures.set ref entry }
    return entry

/-- The entry with a new key and its counterpart. -/
def insert {β : Type} (entry : Entry (Coordinate α) β) (key : List (Coordinate α))
    (counterpart : β) : Building α (Entry (Coordinate α) β) :=
  match entry.insert? key counterpart with
  | some (_, entry) => return entry
  | none => throw (.transcribedTwice (key.map (·.value)))

/-- Appends a finite variable. -/
def appendVariable (v : FiniteVariable α) : Building α Nat := do
  let (position, finite) := (← get).finite.addVariable v
  modify fun t => { t with finite }
  return position

/-- Appends a finite constraint. -/
def appendConstraint (expression : Expression α) (sense : Sense) (rhs : α) (name : String) :
    Building α Nat := do
  let (position, finite) := (← get).finite.addConstraint expression sense rhs name
  modify fun t => { t with finite }
  return position

/-- The finite variable that stands for an infinite variable or derivative at a key. A derivative
has neither bounds nor a start value. -/
def finiteVariable (m : Model α) (ref : Ref) (name : String) (key : List (Coordinate α)) :
    FiniteVariable α :=
  match m.find? ref with
  | some (.infiniteVariable v) =>
    { name, lower := v.lower, upper := v.upper, start := v.start.at? (key.map (·.value)),
      integer := v.integer }
  | _ => { name }

/-- The position of the finite variable of an infinite variable or derivative at a key; it is made
if there is none. -/
def variableAt (m : Model α) (ref : Ref) (key : List (Coordinate α)) : Building α Nat := do
  let (base, parameters) ← check (m.indexed ref)
  let entry ← variableEntry ref parameters
  match entry.get? key with
  | some position => return position
  | none =>
    let name := counterpartName (← get).verbose base key entry.size
    let position ← appendVariable (finiteVariable m ref name key)
    let entry ← insert entry key position
    modify fun t => { t with vars := t.vars.set ref entry }
    return position

/-- The position of the finite variable of a finite or point variable; it is made if there is none.
A point variable stands for its infinite variable at its values. -/
def singleVariable (m : Model α) (ref : Ref) : Building α Nat := do
  let entry ← variableEntry ref []
  match entry.isFinite, entry.rows with
  | true, (_, position) :: _ => return position
  | _, _ =>
    let position ←
      if ref.kind = .pointVariable then do
        let v ← check (m.pointVariable ref)
        variableAt m v.ref (Coordinate.ofValues v.values)
      else appendVariable (← check (m.finiteVariable ref))
    let entry ← insert entry [] position
    modify fun t => { t with vars := t.vars.set ref entry }
    return position

/-- The points of measure data, rounded to the digits of their parameters. -/
def roundedPoints (m : Model α) (data : MeasureData α) : Except (Error α) (List (List α)) := do
  let digits ← data.parameters.mapM fun (p : Ref) => do return (← m.parameter p).digits
  (← data.points).mapM fun point =>
    (digits.zip point).mapM fun (digits, value) => roundTo digits value

/-- Records the reduced variables that a measure of an infinite variable or derivative makes: at
each of its points the variable with the measured parameters fixed, if some but not all are. A
reduced variable with the same fixed values is recorded once. -/
def reduce (m : Model α) (function : Ref) (measured : List Ref) (points : List (List α)) :
    Building α Unit := do
  if function.kind.isInfiniteVariable then
    let (_, parameters) ← check (m.indexed function)
    let remaining := parameters.filter (· ∉ measured)
    if measured.any (· ∈ parameters) && !remaining.isEmpty then
      for point in points do
        let fixed := (measured.zip point).filter fun (p, _) => p ∈ parameters
        let values := fixed.map (·.2)
        unless (← get).reduced.any fun r => r.ref = function && r.values == values do
          let keys ← keys remaining
          let rows ← keys.mapM fun key => do
            let point := Point.override (remaining.zip key) measured (Coordinate.ofValues point)
            return (key, ← variableAt m function (← check (point.key parameters)))
          let entry ← rows.foldlM (fun entry (key, position) => insert entry key position)
            { parameters := remaining }
          modify fun t => { t with reduced := t.reduced ++ [{ ref := function, fixed, entry }] }

/-- The expression of an object with its parameters fixed by a point. The expression of a measure at
a key is made once, from the points of the measure in order. -/
def expression (m : Model α) (ref : Ref) (point : Point (Coordinate α)) :
    Building α (Expression α) := do
  match ref.kind with
  | .parameter =>
    match point.get? ref with
    | some coordinate => return .const coordinate.value
    | none => throw .noEntry
  | .finiteVariable | .pointVariable => return .ofVariable (← singleVariable m ref)
  | .infiniteVariable | .derivative =>
    let (_, parameters) ← check (m.indexed ref)
    return .ofVariable (← variableAt m ref (← check (point.key parameters)))
  | .measure =>
    let parameters ← check (m.functionParameters ref)
    let key ← check (point.key parameters)
    let measure ← check (m.measure ref)
    let entry ← measureEntry ref parameters
    match entry.get? key with
    | some expression => return expression
    | none =>
      let data := measure.data
      let weights ← check data.weights
      let points ← check (roundedPoints m data)
      if _h : measure.function.rank < ref.rank then
        let own : Point (Coordinate α) := parameters.zip key
        let result ← (points.zip weights).foldlM
          (fun (sum : Expression α) (values, weight) => do
            let part ← expression m measure.function
              (own.override data.parameters (Coordinate.ofValues values))
            return sum.add part weight) .zero
        let entry ← measureEntry ref parameters
        let entry ← insert entry key result
        modify fun t => { t with measures := t.measures.set ref entry }
        reduce m measure.function data.parameters points
        return result
      else throw .cyclicMeasure
  | kind => throw (.noExpression kind)
termination_by ref.rank

/-- The sum of coefficients times objects at a point. -/
def combination (m : Model α) (terms : List (α × Ref)) (point : Point (Coordinate α)) :
    Building α (Expression α) :=
  terms.foldlM (fun sum (coefficient, ref) => do
    return sum.add (← expression m ref point) coefficient) .zero

/-- Transcribes finite variables, infinite variables and derivatives at all their keys, and point
variables. -/
def vars (m : Model α) : Building α Unit := do
  for ref in m.liveRefs .finiteVariable do
    let _ ← singleVariable m ref
  for ref in m.liveRefs .infiniteVariable ++ m.liveRefs .derivative do
    let (_, parameters) ← check (m.indexed ref)
    let _ ← variableEntry ref parameters
    for key in ← keys parameters do
      let _ ← variableAt m ref key
  for ref in m.liveRefs .pointVariable do
    let _ ← singleVariable m ref

/-- Transcribes measures at all their keys. -/
def measures (m : Model α) : Building α Unit := do
  for ref in m.liveRefs .measure do
    let parameters ← check (m.functionParameters ref)
    let _ ← measureEntry ref parameters
    for key in ← keys parameters do
      let _ ← expression m ref (parameters.zip key)

/-- Transcribes a constraint at the keys that satisfy its restrictions. -/
def constraintAt (m : Model α) (ref : Ref) (c : Constraint α) (parameters : List Ref)
    (key : List (Coordinate α)) : Building α Unit := do
  let entry := ((← get).constraints.get? ref).getD { parameters }
  let point : Point (Coordinate α) := parameters.zip key
  if (entry.position? key).isNone && Point.satisfies point c.restrictions then
    let expression ← combination m c.terms point
    let name := counterpartName (← get).verbose c.name key entry.size
    let position ← appendConstraint expression c.sense c.rhs name
    let entry ← insert entry key position
    modify fun t => { t with constraints := t.constraints.set ref entry }

/-- Transcribes constraints. -/
def constraints (m : Model α) : Building α Unit := do
  for ref in m.liveRefs .constraint do
    let c ← check (m.constraint ref)
    let parameters ← check (m.parametersOf ref)
    modify fun t => { t with constraints := t.constraints.set ref { parameters } }
    for key in ← keys parameters do
      constraintAt m ref c parameters key

/-- Transcribes an evaluation equation with the other parameters at the given values. The constraint
belongs to the key at which the equation evaluates the derivative. -/
def equationAt (m : Model α) (ref : Ref) (d : Derivative) (e : Equation α) (others : List Ref)
    (rest : List (Coordinate α)) : Building α Unit := do
  let entry := ((← get).evaluations.get? ref).getD { parameters := d.parameters }
  let at' (value : α) : Point (Coordinate α) := (d.parameter, { value }) :: others.zip rest
  let key ← check ((at' e.head.value).key d.parameters)
  if (entry.position? key).isNone then
    let expression ← e.terms.foldlM (fun (sum : Expression α) term => do
      let part ← expression m term.ref (at' term.value)
      return sum.add part term.coefficient) .zero
    let name := counterpartName (← get).verbose s!"{d.name}_eval" key entry.size
    let position ← appendConstraint expression .eq 0 name
    let entry ← insert entry key position
    modify fun t => { t with evaluations := t.evaluations.set ref entry }

/-- Transcribes the evaluation equations of derivatives, each at every combination of the other
parameters. -/
def evaluations (m : Model α) : Building α Unit := do
  for ref in m.liveRefs .derivative do
    let d ← check (m.derivative ref)
    match m.equations? ref.index with
    | none => throw (.noEquations d.name)
    | some equations =>
      let others := d.parameters.filter (· ≠ d.parameter)
      modify fun t =>
        { t with evaluations := t.evaluations.set ref { parameters := d.parameters } }
      for equation in equations do
        for values in ← keys others do
          equationAt m ref d equation others values

/-- All passes in order. -/
def run (m : Model α) : Building α Unit := do
  vars m
  measures m
  constraints m
  evaluations m

end Building

namespace Model

variable {α : Type} [Scalar α]

/-- The parameters of a model with their supports. -/
def snapshot (m : Model α) : Snapshot α :=
  m.parameters.rows.map fun (index, p) => (m.ref .parameter index, p.supports.supports)

/-- The transcription of a model whose supports are prepared. -/
def transcribe (m : Model α) (verbose : Bool) : Except (Error α) (Transcription α) :=
  let start : Transcription α (Coordinate α) :=
    { finite := { name := m.name ++ "_transcription" }, verbose, snapshot := m.snapshot }
  match EStateM.run (Building.run m) start with
  | .ok _ t => .ok (t.mapKeys (·.value))
  | .error e _ => .error e

end Model

namespace Transcription

open Operation

variable {α : Type} [Scalar α]

/-- Adds again the supports at which point variables and measures are defined; they may have been
deleted. -/
def restoreSupports : Operation α Unit := do
  let m ← model
  for ref in m.liveRefs .pointVariable do
    let v ← check (m.pointVariable ref)
    let (_, parameters) ← check (m.indexed v.ref)
    for (p, value) in parameters.zip v.values do
      let _ ← Store.add p [value] (.given .userDefined) true
  for ref in m.liveRefs .measure do
    let data := (← check (m.measure ref)).data
    for (p, row) in data.parameters.zip data.supports do
      let _ ← Store.add p row (.given data.label) true

/-- Makes the supports ready for a transcription: default supports for parameters without any, the
supports of point variables and measures, derived supports, and the evaluation of all derivatives.
-/
def prepareSupports : Operation α Unit := do
  let parameters := (← model).liveRefs .parameter
  for p in parameters do
    Store.fillIn p none false none
  restoreSupports
  for p in parameters do
    Store.addGenerative p
  Evaluation.evaluateAll

/-- Transcribes the model and makes it ready. Names show support values if asked for, or if the
settings say so. -/
def build (verbose : Option Bool) : Operation α (Transcription α) := do
  let verbose := verbose.getD (← get).environment.settings.defaultVerbose
  prepareSupports
  let m ← model
  let t ← check (m.transcribe verbose)
  modifyModel (·.markReady (some t))
  onEnvironment (Environment.log
    [.transcribed m.name t.finite.vars.length t.finite.constraints.length t.reduced.length])
  return t

end Transcription

end Discretization
