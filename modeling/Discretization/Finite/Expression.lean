import Discretization.Scalar

/-!
# Affine Expressions

Sums of coefficients times finite variables, plus a constant. The terms stand in the order in which
their variables first occurred. `Expression.eval` gives the meaning under an assignment of the
variables.
-/

namespace Discretization

/-- A sum of coefficients times variables, plus a constant. -/
structure Expression (α : Type) where
  /-- Variables with their coefficients, each variable once. -/
  terms : List (Int × α)
  /-- The constant. -/
  constant : α
  deriving Repr

namespace Expression

variable {α : Type} [Scalar α]

/-- The expression without terms. -/
def const (constant : α) : Expression α :=
  ⟨[], constant⟩

/-- The expression zero. -/
def zero : Expression α :=
  const 0

/-- The expression of one variable. -/
def ofVariable (variableIndex : Int) : Expression α :=
  ⟨[(variableIndex, 1)], 0⟩

/-- Terms in which a variable given again has its last coefficient at its first place. -/
def setTerm (terms : List (Int × α)) (variableIndex : Int) (coefficient : α) : List (Int × α) :=
  match terms with
  | [] => [(variableIndex, coefficient)]
  | (i, c) :: rest =>
    if i = variableIndex then (i, coefficient) :: rest
    else (i, c) :: setTerm rest variableIndex coefficient

/-- The expression with the given terms and constant. -/
def ofTerms (terms : List (Int × α)) (constant : α) : Expression α :=
  ⟨terms.foldl (fun terms (i, c) => setTerm terms i c) [], constant⟩

/-- Terms with a coefficient added to that of a variable; a variable that does not occur has the
coefficient zero. -/
def addToTerms (terms : List (Int × α)) (variableIndex : Int) (coefficient : α) :
    List (Int × α) :=
  match terms with
  | [] => [(variableIndex, 0 + coefficient)]
  | (i, c) :: rest =>
    if i = variableIndex then (i, c + coefficient) :: rest
    else (i, c) :: addToTerms rest variableIndex coefficient

/-- The expression plus a coefficient times a variable. -/
def addTerm (e : Expression α) (variableIndex : Int) (coefficient : α) : Expression α :=
  { e with terms := addToTerms e.terms variableIndex coefficient }

/-- The expression `e + scale * other`. -/
def add (e other : Expression α) (scale : α) : Expression α :=
  let e' := other.terms.foldl (fun e (i, c) => e.addTerm i (scale * c)) e
  { e' with constant := e'.constant + scale * other.constant }

/-- The expression `scale * e`. -/
def scaled (e : Expression α) (scale : α) : Expression α :=
  ⟨e.terms.map fun (i, c) => (i, scale * c), scale * e.constant⟩

/-- The value of the terms under an assignment of the variables. -/
def evalTerms (assignment : Int → α) (terms : List (Int × α)) : α :=
  Scalar.sum (terms.map fun (i, c) => c * assignment i)

/-- The value of the expression under an assignment of the variables. -/
def eval (assignment : Int → α) (e : Expression α) : α :=
  evalTerms assignment e.terms + e.constant

/-- The expression as text: signed coefficients with their variables, and the constant unless it is
zero beside terms. -/
def text (e : Expression α) : String :=
  let terms := e.terms.map fun (i, c) => s!"{Scalar.coefficientText c}*v{i}"
  let parts :=
    if !(e.constant == 0) || terms.isEmpty then terms ++ [Scalar.coefficientText e.constant]
    else terms
  "AffineExpression(" ++ " ".intercalate parts ++ ")"

end Expression

end Discretization
