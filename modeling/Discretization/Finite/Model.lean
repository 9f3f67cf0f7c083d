import Discretization.Error
import Discretization.Finite.Expression

/-!
# Finite Models

The target of a transcription: variables with bounds and start values, and constraints between an
affine expression and a number. Both are addressed by their position.
-/

namespace Discretization

/-- The relations of a constraint. -/
inductive Sense where
  /-- At most. -/
  | le
  /-- At least. -/
  | ge
  /-- Equal. -/
  | eq
  /-- A relation that is passed on as it is. -/
  | other (text : String)
  deriving Repr, DecidableEq

namespace Sense

/-- The relation with the given sign. -/
def ofText : String → Sense
  | "<=" => le
  | ">=" => ge
  | "==" => eq
  | text => other text

/-- The sign of a relation. -/
def text : Sense → String
  | le => "<="
  | ge => ">="
  | eq => "=="
  | other text => text

/-- Whether two numbers are in the relation; a relation passed on has no meaning of its own. -/
def holds {α : Type} [Scalar α] : Sense → α → α → Prop
  | le, x, y => x ≤ y
  | ge, x, y => y ≤ x
  | eq, x, y => x = y
  | other _, _, _ => False

end Sense

/-- A variable of a finite model. -/
structure FiniteVariable (α : Type) where
  /-- The name. -/
  name : String
  /-- The lower bound, if there is one. -/
  lower : Option α := none
  /-- The upper bound, if there is one. -/
  upper : Option α := none
  /-- The start value, if there is one. -/
  start : Option α := none
  /-- Whether the variable takes whole values only. -/
  integer : Bool := false
  deriving Repr

/-- A constraint of a finite model. -/
structure FiniteConstraint (α : Type) where
  /-- The name. -/
  name : String
  /-- The left-hand side. -/
  body : Expression α
  /-- The relation. -/
  sense : Sense
  /-- The right-hand side. -/
  rhs : α
  deriving Repr

namespace FiniteConstraint

variable {α : Type} [Scalar α]

/-- Whether the constraint holds under an assignment of the variables. -/
def holds (assignment : Int → α) (c : FiniteConstraint α) : Prop :=
  c.sense.holds (c.body.eval assignment) c.rhs

end FiniteConstraint

/-- Variables and constraints by position. -/
structure FiniteModel (α : Type) where
  /-- The name. -/
  name : String
  /-- The variables. -/
  vars : List (FiniteVariable α) := []
  /-- The constraints. -/
  constraints : List (FiniteConstraint α) := []
  deriving Repr

namespace FiniteModel

variable {α : Type}

/-- The model as text. -/
def text (m : FiniteModel α) : String :=
  "FiniteModel(" ++ Text.quoted m.name ++ s!", variables={m.vars.length}, " ++
    s!"constraints={m.constraints.length})"

/-- Appends a variable and gives its position. -/
def addVariable (m : FiniteModel α) (v : FiniteVariable α) : Nat × FiniteModel α :=
  (m.vars.length, { m with vars := m.vars ++ [v] })

/-- Appends the constraint between an expression and a number and gives its position. The constant
of the expression moves to the right-hand side. -/
def addConstraint [Scalar α] (m : FiniteModel α) (expression : Expression α) (sense : Sense)
    (rhs : α) (name : String) : Nat × FiniteModel α :=
  let body := { expression with constant := 0 }
  (m.constraints.length,
    { m with constraints := m.constraints ++ [⟨name, body, sense, rhs - expression.constant⟩] })

/-- The position that an index means in a list of the given length; negative indices count from the
end. -/
def position? (length : Nat) (index : Int) : Option Nat :=
  let position := if index < 0 then index + length else index
  if 0 ≤ position ∧ position < length then some position.toNat else none

/-- Renames the variable at an index. -/
def renameVariable (m : FiniteModel α) (index : Int) (name : String) :
    Except (Error α) (FiniteModel α) :=
  match position? m.vars.length index with
  | some position =>
    pure { m with vars := m.vars.modify position fun v => { v with name } }
  | none => throw .outsideList

/-- Renames the constraint at an index. -/
def renameConstraint (m : FiniteModel α) (index : Int) (name : String) :
    Except (Error α) (FiniteModel α) :=
  match position? m.constraints.length index with
  | some position =>
    pure { m with constraints := m.constraints.modify position fun c => { c with name } }
  | none => throw .outsideList

/-- The position of the first variable with the given name. -/
def variableNamed? (m : FiniteModel α) (name : String) : Option Nat :=
  m.vars.findIdx? (·.name == name)

/-- The position of the first constraint with the given name. -/
def constraintNamed? (m : FiniteModel α) (name : String) : Option Nat :=
  m.constraints.findIdx? (·.name == name)

end FiniteModel

end Discretization
