import Discretization.Scalar

/-!
# Interpolation and Quadrature Formulas

The numerical formulas over a list of nodes: equidistant grids, the differentiation matrix of the
Lagrange interpolant, and the weights of the trapezoid rule. All are written in one fixed order of
operations, so they have one result over doubles; over an exact field they are the textbook
formulas.
-/

namespace Discretization

variable {α : Type} [Scalar α]

/-- The sum of a list of numbers. Fewer than eight are added from the left; longer lists are added
in eight interleaved partial sums, and lists above 128 in two parts. -/
def blockSum (xs : List α) : α :=
  if xs.length < 8 then Scalar.sum xs
  else if _h : xs.length ≤ 128 then
    let full := xs.length / 8 * 8
    let partials := (List.range 8).map fun lane =>
      match (List.range (xs.length / 8)).map fun row => xs.getD (row * 8 + lane) 0 with
      | [] => 0
      | first :: rest => rest.foldl (· + ·) first
    let lane (i : Nat) : α := partials.getD i 0
    (xs.drop full).foldl (· + ·)
      (((lane 0 + lane 1) + (lane 2 + lane 3)) + ((lane 4 + lane 5) + (lane 6 + lane 7)))
  else
    let half := xs.length / 2 / 8 * 8
    blockSum (xs.take half) + blockSum (xs.drop half)
termination_by xs.length
decreasing_by
  · simp only [List.length_take]; omega
  · simp only [List.length_drop]; omega

/-- `count` equidistant numbers from `first` to `last`. Each is `first` plus a multiple of the step,
and the last of several is exact; the multiple is formed also where it is zero, so over an infinite
range it is undefined. -/
def grid (first last : α) (count : Nat) : List α :=
  let width := last - first
  match count with
  | 0 => []
  | 1 => [0 * width + first]
  | n + 2 =>
    let step := width / Scalar.ofNat (n + 1)
    let inner (i : Nat) : α :=
      if step == 0 then Scalar.ofNat i / Scalar.ofNat (n + 1) * width + first
      else Scalar.ofNat i * step + first
    (List.range (n + 1)).map inner ++ [last]

/-- The differences of a node to all nodes, with one in place of the difference to itself. -/
def nodeDifferences (nodes : List α) (j : Nat) (node : α) : List α :=
  nodes.mapIdx fun k other => if k = j then 1 else node - other

/-- The barycentric weight of each node: one over the product of its differences to the others. -/
def barycentricWeights (nodes : List α) : List α :=
  nodes.mapIdx fun j node => 1 / Scalar.product (nodeDifferences nodes j node)

/-- The differentiation matrix of the Lagrange interpolant. The entry in row `j` and column `k` is
the derivative of the `k`-th basis polynomial at the `j`-th node, so that the product with the
values of a function at the nodes gives the slopes of the interpolant there. A diagonal entry is
minus the sum of the others in its row. -/
def lagrangeMatrix (nodes : List α) : List (List α) :=
  let weights := barycentricWeights nodes
  nodes.mapIdx fun j node =>
    let weight := weights.getD j 1
    let row := (weights.zip (nodeDifferences nodes j node)).mapIdx fun k (other, difference) =>
      if k = j then 0 else other / weight / difference
    row.set j (-(blockSum row))

/-- The differences of neighbouring numbers. -/
def widths (xs : List α) : List α :=
  (xs.zip xs.tail).map fun (x, next) => next - x

/-- The trapezoid rule: each node is weighted with half the elements on both sides of it. -/
def trapezoidWeights (nodes : List α) : List α :=
  let halves := (widths nodes).map (· / Scalar.ofNat 2)
  ((halves ++ [0]).zip (0 :: halves)).mapIdx fun k (right, left) =>
    if k = 0 then 0 + right
    else if k = halves.length then 0 + left
    else 0 + right + left

end Discretization
