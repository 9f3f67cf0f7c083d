import Discretization.Environment
import Discretization.Model.Basic

/-!
# Workspace

A model together with its environment: the state that operations on a model read and change. An
operation is a state transformer (`Operation`); when it fails, the workspace it leaves behind holds
whatever it had changed by then.
-/

namespace Discretization

/-- A model and its environment. -/
structure Workspace (α : Type) where
  /-- Settings, random sources, registries and the journal. -/
  environment : Environment α := {}
  /-- The model. -/
  model : Model α

/-- An operation on a workspace. -/
abbrev Operation (α β : Type) := EStateM (Error α) (Workspace α) β

namespace Operation

variable {α β : Type}

/-- A check that may fail and changes nothing. -/
def check (result : Except (Error α) β) : Operation α β :=
  match result with
  | .ok b => pure b
  | .error e => throw e

/-- The model. -/
def model : Operation α (Model α) :=
  return (← get).model

/-- Changes the model. -/
def modifyModel (f : Model α → Model α) : Operation α Unit :=
  modify fun w => { w with model := f w.model }

/-- A check that reads the model. -/
def query (f : Model α → Except (Error α) β) : Operation α β := do
  check (f (← model))

/-- A change of the model that either succeeds as a whole or changes nothing. -/
def change (f : Model α → Except (Error α) (β × Model α)) : Operation α β := do
  let (b, m) ← query f
  modifyModel fun _ => m
  return b

/-- An operation on the environment. -/
def onEnvironment (action : EnvironmentAction α β) : Operation α β := fun w =>
  match action w.environment with
  | .ok b e => .ok b { w with environment := e }
  | .error error e => .error error { w with environment := e }

/-- Gives a warning. -/
def warn (warning : Warning) : Operation α Unit :=
  onEnvironment (Environment.warn warning)

end Operation

namespace Model

variable {α : Type}

/-- Marks the model as changed since its last transcription. -/
def markStale (m : Model α) : Model α :=
  { m with ready := false }

/-- Marks the model as changed if something depends on a parameter. -/
def markStaleIfUsed (m : Model α) (p : Ref) : Model α :=
  if m.isUsed p then m.markStale else m

/-- Attaches a transcription, which makes the model ready. -/
def markReady (m : Model α) (t : Option (Transcription α)) : Model α :=
  { m with transcription := t, ready := true }

/-- Changes a parameter. -/
def modifyParameter (m : Model α) (p : Ref) (f : Parameter α → Parameter α) : Model α :=
  { m with parameters := m.parameters.modify p.index f }

/-- Stores the equations of a derivative that has none. -/
def storeEquations (m : Model α) (derivative : Nat) (equations : List (Equation α)) : Model α :=
  { m with equations := m.equations ++ [(derivative, equations)] }

/-- Removes the stored equations of a derivative. -/
def dropEquations (m : Model α) (derivative : Int) : Model α :=
  { m with equations := m.equations.filter fun row => (row.1 : Int) ≠ derivative }

/-- Removes the stored equations of all derivatives with respect to a parameter and clears the flag
of the parameter. -/
def dropEquationsOf (m : Model α) (p : Ref) : Model α :=
  let m := (m.derivativesOf p).foldl (fun m d => m.dropEquations d.index) m
  m.modifyParameter p fun parameter => { parameter with hasEquations := false }

end Model

end Discretization
