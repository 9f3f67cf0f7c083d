import Discretization.Transcription.Builder
import Discretization.Transcription.Query

/-!
# Sessions

Several models in one environment. A reference says which model it belongs to; operations on
references go to that model, and operations on lists of references go through them in order and stop
at the first failure.
-/

namespace Discretization

/-- What stands in for a random number generator in sessions that bring none along. It gives every
request for entropy a number of its own, and no more than that. -/
def Seed.standIn {α : Type} [Scalar α] : Seed → Source α
  | given _ => .replay [] 0
  | entropy request => .replay [Scalar.ofRatio 1 (request + 2)] 0

/-- Models and their common environment. -/
structure Session (α : Type) [Scalar α] where
  /-- Settings, random sources, registries and the journal. -/
  environment : Environment α := { seeding := Seed.standIn }
  /-- The models; the number of a model is its position. -/
  models : List (Model α) := []
  /-- The query handlers. -/
  handlers : HandlerRegistry := .builtin

/-- An operation on a session. -/
abbrev SessionAction (α β : Type) [Scalar α] := EStateM (Error α) (Session α) β

namespace Session

variable {α β : Type} [Scalar α]

/-- A check that may fail and changes nothing. -/
def check (result : Except (Error α) β) : SessionAction α β :=
  match result with
  | .ok b => pure b
  | .error e => throw e

/-- Adds a model without objects. -/
def addModel (name : String) : SessionAction α Nat := do
  let id := (← get).models.length
  modify fun s => { s with models := s.models ++ [{ id, name }] }
  return id

/-- The model with a number. -/
def model (id : Nat) : SessionAction α (Model α) := do
  match (← get).models[id]? with
  | some m => return m
  | none => throw .noObjects

/-- A check that reads a model. -/
def query (id : Nat) (f : Model α → Except (Error α) β) : SessionAction α β := do
  check (f (← model id))

/-- An operation on the environment. -/
def onEnvironment (action : EnvironmentAction α β) : SessionAction α β := fun s =>
  match action s.environment with
  | .ok b e => .ok b { s with environment := e }
  | .error error e => .error error { s with environment := e }

/-- An operation on a model and the environment. -/
def inModel (id : Nat) (action : Operation α β) : SessionAction α β := fun s =>
  match s.models[id]? with
  | none => .error .noObjects s
  | some m =>
    let put (w : Workspace α) : Session α :=
      { s with environment := w.environment, models := s.models.set id w.model }
    match action ⟨s.environment, m⟩ with
    | .ok b w => .ok b (put w)
    | .error error w => .error error (put w)

/-- A change of a model that either succeeds as a whole or changes nothing. -/
def change (id : Nat) (f : Model α → Except (Error α) (β × Model α)) : SessionAction α β :=
  inModel id (Operation.change f)

/-- The name of an object, as a model gives it. A reduced variable is named by the model that it
belongs to, whichever model is asked. -/
def nameFrom (id : Nat) (ref : Ref) : SessionAction α String :=
  query (if ref.kind = .reducedVariable then ref.model else id) (·.nameOf ref)

/-- The name of an object, as its own model gives it. -/
def nameOf (ref : Ref) : SessionAction α String :=
  nameFrom ref.model ref

/-- Adds a derivative to a model. The parameter may belong to another model, which names it in the
error. -/
def addDerivative (id : Nat) (variableRef : Handle) (p : Ref) (name : String) :
    SessionAction α Ref := do
  let parameterName : Except (Error α) String :=
    match (nameOf p).run (← get) with
    | .ok name _ => .ok name
    | .error e _ => .error e
  change id (·.addDerivative variableRef p name parameterName)

/-- Deletes the supports of parameters one after the other. Parameters before one that fails stay
changed. -/
def deleteSupports (ps : List Ref) (label : Label) : SessionAction α Unit :=
  ps.forM fun p => inModel p.model (Store.delete p label)

/-- Generates the supports that parameters lack, one parameter after the other. -/
def fillInSupports (ps : List Ref) (count : Option Int) (extend : Bool) (source : Option Nat) :
    SessionAction α Unit :=
  ps.forM fun p => inModel p.model (Store.fillIn p count extend source)

/-- The supports of parameters that a label selects: every combination, or the supports side by
side. -/
def supportsOf (ps : List Ref) (label : Label) (combined : Bool) : SessionAction α (Tensor α) := do
  let rows ← ps.mapM fun (p : Ref) => do
    let parameter ← query p.model (·.parameter p)
    return (parameter.name, parameter.selected label)
  if combined && !rows.isEmpty then return combinedSupports (rows.map (·.2))
  else check (pairedSupports rows)

end Session

end Discretization
