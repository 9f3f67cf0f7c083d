import Discretization.DerivativeMethod
import Discretization.Interpolation
import Discretization.SupportMap

/-!
# Evaluation Equations

A derivative with respect to a parameter is made algebraic by equations between its values and those
of its variable at supports of the parameter. An equation says that a sum of coefficients times
objects at supports is zero; the other parameters of the variable stay free.

Finite differences relate neighbouring supports. Orthogonal collocation differentiates the
interpolant of each element exactly at all its nodes but the first, which belongs to the element
before.
-/

namespace Discretization

/-- A coefficient times a derivative or variable at a support of the parameter. -/
structure EquationTerm (α : Type) where
  /-- The coefficient. -/
  coefficient : α
  /-- The derivative or the variable. -/
  ref : Ref
  /-- The value of the parameter. -/
  value : α
  deriving Repr

/-- The statement that the terms add up to zero. -/
structure Equation (α : Type) where
  /-- The derivative that the equation evaluates. -/
  derivative : Ref
  /-- The term with the derivative. -/
  head : EquationTerm α
  /-- The terms with the variable. -/
  rest : List (EquationTerm α)
  deriving Repr

namespace Equation

variable {α : Type} [Scalar α]

/-- All terms, that of the derivative first. -/
def terms (e : Equation α) : List (EquationTerm α) :=
  e.head :: e.rest

/-- Puts a value into an increasing list, unless an equal one is there. -/
def insertValue (value : α) : List α → List α
  | [] => [value]
  | x :: rest =>
    if x == value then x :: rest
    else if value < x then value :: x :: rest
    else x :: insertValue value rest

/-- The supports that occur in the equation, in increasing order. -/
def supportValues (e : Equation α) : List α :=
  (e.terms.map (·.value)).foldl (fun values value => insertValue value values) []

/-- The equation of a stencil: the width of the stencil times the derivative at `at`, minus the
increase of the variable from `lower` to `upper`. -/
def difference (derivative variableRef : Ref) (at' lower upper : α) : Equation α :=
  { derivative
    head := ⟨upper - lower, derivative, at'⟩
    rest := [⟨-1, variableRef, upper⟩, ⟨1, variableRef, lower⟩] }

/-- The equations of a stencil over supports in increasing order. -/
def differences (derivative variableRef : Ref) (supports : List α) (technique : Technique) :
    Except (Error α) (List (Equation α)) :=
  if supports.length < technique.needed then
    throw (.stencilSupports technique.title technique.needed supports.length)
  else
    let pairs := supports.zip supports.tail
    pure <| match technique with
      | .backward => pairs.map fun (s, next) => difference derivative variableRef next s next
      | .forward => pairs.map fun (s, next) => difference derivative variableRef s s next
      | .central => (supports.zip (pairs.tail)).map fun (before, s, after) =>
          difference derivative variableRef s before after

/-- The equations of one element: minus the derivative at each node but the first, plus the slope of
the interpolant of the variable there. -/
def element (derivative variableRef : Ref) (nodes : List α) : List (Equation α) :=
  ((nodes.zip (lagrangeMatrix nodes)).tail).map fun (node, row) =>
    { derivative
      head := ⟨-1, derivative, node⟩
      rest := (row.zip nodes).map fun (entry, other) => ⟨entry, variableRef, other⟩ }

/-- Cuts supports into elements: each runs from one boundary to the next, both included. Supports
before the first and after the last boundary belong to no element. -/
def elements (isBoundary : Support α → Bool) : List (Support α) → List (List α)
  | [] => []
  | support :: rest =>
    if isBoundary support then
      match rest.span (fun s => !isBoundary s) with
      | (inner, stop :: _) =>
        (support.value :: inner.map (·.value) ++ [stop.value]) :: elements isBoundary rest
      | (_, []) => elements isBoundary rest
    else elements isBoundary rest

/-- The equations of orthogonal collocation: the elements lie between supports that carry some label
besides the one of derived supports. -/
def collocation (derivative variableRef : Ref) (supports : SupportMap α) (derived : Label)
    (name : String) : Except (Error α) (List (Equation α)) :=
  let isBoundary (support : Support α) : Bool := support.labels != [derived]
  if (supports.supports.filter isBoundary).length < 2 then throw (.elementSupports name)
  else pure ((elements isBoundary supports.supports).flatMap (element derivative variableRef))

end Equation

end Discretization
