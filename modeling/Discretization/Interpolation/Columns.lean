import Discretization.Interpolation
import Discretization.Tensor

/-!
# Nodes in Several Columns

The differentiation matrix of nodes that fill a tensor: its first axis runs along the nodes, and
every position of the other axes is a column with a matrix of its own. Only entries whose indices
are all equal count as diagonal. In a column without such an entry the difference of a node to
itself stays zero, so its weights are infinite or undefined.
-/

namespace Discretization

/-- Nodes by column. -/
structure NodeColumns (α : Type) where
  /-- The number of nodes in each column. -/
  count : Nat
  /-- The number of columns. -/
  columns : Nat
  /-- The distance from the column of one diagonal entry to that of the next. -/
  stride : Nat
  /-- The nodes, a row for each position along the columns. -/
  nodes : List α

namespace NodeColumns

variable {α : Type} [Scalar α]

/-- The nodes of a tensor whose axes all have the same length. -/
def ofTensor? (t : Tensor α) : Except (Error α) (NodeColumns α) :=
  match t.shape with
  | [] => throw .missingAxis
  | count :: inner =>
    if inner.any (· ≠ count) then throw .unevenShape
    else pure ⟨count, t.blockSize, inner.foldl (fun stride n => stride * n + 1) 0, t.entries⟩

/-- A node. -/
def node (t : NodeColumns α) (row column : Nat) : α :=
  t.nodes.getD (row * t.columns + column) 0

/-- Whether an entry of the matrix of a column is diagonal. -/
def isDiagonal (t : NodeColumns α) (row other column : Nat) : Bool :=
  row = other && column = row * t.stride

/-- The difference of two nodes of a column, with one in place of a diagonal entry. -/
def difference (t : NodeColumns α) (row other column : Nat) : α :=
  if t.isDiagonal row other column then 1 else t.node row column - t.node other column

/-- One over the product of the differences of a node to the nodes of its column. -/
def weight (t : NodeColumns α) (row column : Nat) : α :=
  1 / Scalar.product ((List.range t.count).map (t.difference row · column))

/-- A quotient of weights over the difference of their nodes, with zero in place of a diagonal
entry. -/
def quotient (t : NodeColumns α) (row other column : Nat) : α :=
  if t.isDiagonal row other column then 0
  else t.weight other column / t.weight row column / t.difference row other column

/-- The diagonal entry of a row: minus the sum over a row of some column, where the rows of all
columns are counted column by column for the first node, then for the next. -/
def diagonal (t : NodeColumns α) (row : Nat) : α :=
  -(Scalar.sum ((List.range t.count).map (t.quotient (row / t.columns) · (row % t.columns))))

/-- The entry of the matrix of a column. -/
def slope (t : NodeColumns α) (row other column : Nat) : α :=
  if t.isDiagonal row other column then t.diagonal row else t.quotient row other column

end NodeColumns

/-- The differentiation matrices of nodes in columns: the axes are those of the nodes after one for
the node at which the slope is taken. For a list of nodes it is `lagrangeMatrix`. -/
def lagrangeTensor {α : Type} [Scalar α] (nodes : Tensor α) : Except (Error α) (Tensor α) := do
  let t ← NodeColumns.ofTensor? nodes
  if nodes.shape.length = 1 then return Tensor.matrix t.count (lagrangeMatrix t.nodes)
  let rows := List.range t.count
  return ⟨t.count :: nodes.shape, rows.flatMap fun row => rows.flatMap fun other =>
    (List.range t.columns).map (t.slope row other)⟩

end Discretization
