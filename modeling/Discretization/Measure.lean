import Discretization.Tensor

/-!
# Measure Data

A discrete measure integrates a function over one or more of its parameters as a weighted sum over
fixed points: the value of the function at the `k`-th point counts with the `k`-th coefficient times
the weight function at that point.
-/

namespace Discretization

/-- The affine function with the given coefficients, the constant first: values beyond the
coefficients do not count, nor do coefficients beyond the values. -/
def affine {α : Type} [Scalar α] (coefficients : List α) (values : List α) : α :=
  match coefficients with
  | [] => 0
  | constant :: slopes =>
    (slopes.zip values).foldl (fun total (slope, value) => total + slope * value) constant

/-- What the value of a function at a point counts, beside the coefficient of the point. -/
inductive Weight (α : Type) where
  /-- The same at every point. -/
  | constant (c : α)
  /-- A function of the values of the point. -/
  | function (f : List α → α)

namespace Weight

variable {α : Type} [Scalar α]

/-- The weight that is one everywhere. -/
def unit : Weight α :=
  .constant 1

/-- The affine weight with the given coefficients. -/
def affine : List α → Weight α
  | [] => .constant 0
  | [c] => .constant c
  | coefficients => .function (Discretization.affine coefficients)

end Weight

/-- The points, coefficients and weights of a discrete measure. -/
structure MeasureData (α : Type) where
  /-- The parameters that are integrated out, one per row of `supports`. -/
  parameters : List Ref
  /-- The coefficient of each point. -/
  coefficients : List α
  /-- The supports of each parameter, point by point. -/
  supports : List (List α)
  /-- The axes along which the supports of one parameter at one point extend; there are none where
  a point has a single value for each parameter. -/
  inner : List Nat
  /-- The label under which the points are stored on the parameters. -/
  label : Label
  /-- The weight of a point. -/
  weight : Weight α
  /-- The name of measures made from the data. -/
  name : String

namespace MeasureData

variable {α : Type} [Scalar α]

/-- The supports as rows, cut out of a tensor along its first axis, with the number of points and
the axes within a point; a list is a single row. -/
def rows : Tensor α → Except (Error α) (List (List α) × Nat × List Nat)
  | ⟨[], _⟩ => throw .missingAxis
  | ⟨[columns], entries⟩ => pure ([entries], columns, [])
  | ⟨count :: columns :: inner, entries⟩ =>
    let width := entries.length / count
    let row (i : Nat) : List α := (entries.drop (i * width)).take width
    pure ((List.range count).map row, columns, inner)

/-- Checked measure data: a row for each parameter, a coefficient for each column, no parameter
twice, and a label that can be stored. -/
def make? (parameters : List Ref) (coefficients : List α) (supports : Tensor α) (label : Label)
    (weight : Weight α) (name : String) : Except (Error α) (MeasureData α) := do
  let (supports, columns, inner) ← rows supports
  if supports.length ≠ parameters.length then
    throw (.measureRows supports.length parameters.length)
  if columns ≠ coefficients.length then
    throw (.coefficientCount coefficients.length columns)
  if ¬ parameters.Nodup then throw .repeatedMeasureParameter
  if label.isSelector then throw (.measureLabel label)
  return { parameters, coefficients, supports, inner, label, weight, name }

/-- The number of points. -/
def size (data : MeasureData α) : Nat :=
  data.coefficients.length

/-- The supports with all their axes. -/
def tensor (data : MeasureData α) : Tensor α :=
  ⟨data.supports.length :: data.size :: data.inner, data.supports.flatten⟩

/-- Whether every point has a single value for each parameter. -/
def isPointwise (data : MeasureData α) : Bool :=
  data.size = 0 || data.inner.all (· = 1)

/-- The points, each with one value per parameter. -/
def points (data : MeasureData α) : Except (Error α) (List (List α)) :=
  if data.isPointwise then
    pure ((List.range data.size).map fun k => data.supports.map (·.getD k 0))
  else throw .notPointwise

/-- The coefficient of each point times its weight. -/
def weights (data : MeasureData α) : Except (Error α) (List α) :=
  match data.weight with
  | .constant c => pure (data.coefficients.map (· * c))
  | .function f =>
    return List.zipWith (fun coefficient point => coefficient * f point)
      data.coefficients (← data.points)

end MeasureData

end Discretization
