import Discretization.Model.Basic

/-!
# Queries of Supports

Which supports a parameter has under a label, and how those of several parameters combine. Public
queries leave out supports all of whose labels are internal; a parameter without internal supports
answers them without looking at labels.
-/

namespace Discretization

variable {α : Type}

namespace Parameter

variable [Scalar α]

/-- Whether a query with a label takes every support without looking at labels. -/
def takesAll (p : Parameter α) (label : Label) : Bool :=
  label = .all || (label = .visible && !p.hasInternal)

/-- The values that a label selects, in increasing order. -/
def selected (p : Parameter α) (label : Label) : List α :=
  if p.takesAll label then p.supports.values
  else (p.supports.select label).map (·.value)

/-- The number of values that a label selects. -/
def count (p : Parameter α) (label : Label) : Nat :=
  if p.takesAll label then p.supports.size
  else (p.supports.select label).length

/-- Values rounded to the parameter's digits. -/
def round (p : Parameter α) (values : List α) : Except (Error α) (List α) :=
  roundList p.digits values

/-- Checks that all values lie in the domain. -/
def checkBounds (p : Parameter α) (values : List α) : Except (Error α) Unit := do
  let (lower, upper) ← p.domain.bounds
  let outside := values.filter fun value => !Scalar.between lower upper value
  if outside.isEmpty then return ()
  else throw (.outOfBounds outside p.name lower upper)

end Parameter

/-- Every way to take one element of each list, the last list varying fastest. -/
def combinations {β : Type} : List (List β) → List (List β)
  | [] => [[]]
  | xs :: rest => xs.flatMap fun x => (combinations rest).map (x :: ·)

/-- A label under which supports can be stored. -/
def Label.storable : Argument Label → Except (Error α) Label
  | .given label =>
    if label.isSelector then throw (.selectorStored label) else pure label
  | .mistyped value => throw (.notLabel value.typeName)

namespace Model

variable [Scalar α]

/-- The supports of a parameter that a label selects, in increasing order. -/
def supports (m : Model α) (p : Ref) (label : Label) : Except (Error α) (List α) := do
  return (← m.parameter p).selected label

/-- The number of supports of a parameter that a label selects. -/
def supportCount (m : Model α) (p : Ref) (label : Label) : Except (Error α) Nat := do
  return (← m.parameter p).count label

/-- Whether a parameter has supports of any label. -/
def hasSupports (m : Model α) (p : Ref) : Except (Error α) Bool := do
  return (← m.parameter p).supports.size > 0

/-- Rounds values for a parameter and checks that they could be stored under a label. -/
def checkSupports (m : Model α) (p : Ref) (values : List α) (label : Argument Label) :
    Except (Error α) (List α) := do
  let parameter ← m.parameter p
  let _ ← Label.storable label
  let rounded ← parameter.round values
  parameter.checkBounds rounded
  return rounded

end Model

/-- Supports of several parameters, one row each, in columns for every combination. -/
def combinedSupports [Scalar α] (rows : List (List α)) : Tensor α :=
  let columns := combinations rows
  Tensor.matrix columns.length ((List.range rows.length).map fun i =>
    columns.map fun column => column.getD i 0)

/-- Supports of several parameters, one row each, side by side; all rows must be equally long. Rows
come with the name of their parameter. -/
def pairedSupports (rows : List (String × List α)) : Except (Error α) (Tensor α) :=
  let expected := ((rows.head?.map fun row => row.2.length)).getD 0
  match rows.find? fun row => row.2.length ≠ expected with
  | some (name, row) => throw (.unequalCounts name row.length expected)
  | none => pure (Tensor.matrix expected (rows.map (·.2)))

end Discretization
