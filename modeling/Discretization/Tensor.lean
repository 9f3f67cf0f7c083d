import Discretization.Error

/-!
# Tensors and Rounding

Support values come as a single number, a list, or a nested list of equal lengths. A `Tensor` keeps
the shape beside the numbers in row-major order. Values are rounded to significant digits one by
one, which keeps the shape; a single number becomes a list of one.
-/

namespace Discretization

/-- Numbers in row-major order with the lengths along each axis. -/
structure Tensor (α : Type) where
  /-- The length along each axis, outermost first. -/
  shape : List Nat
  /-- The numbers in row-major order. -/
  entries : List α
  deriving Repr

namespace Tensor

variable {α : Type}

/-- A list of numbers. -/
def vector (xs : List α) : Tensor α :=
  ⟨[xs.length], xs⟩

/-- Rows of `width` numbers each. -/
def matrix (width : Nat) (rows : List (List α)) : Tensor α :=
  ⟨[rows.length, width], rows.flatten⟩

/-- The number of entries at each position of the outermost axis. -/
def blockSize (t : Tensor α) : Nat :=
  t.shape.tail.foldl (· * ·) 1

/-- Entries of the given shape, reordered for the reversed axes: each block along the outermost axis
is reordered, and the blocks are interleaved. -/
def reversed [Zero α] : (shape : List Nat) → List α → List α
  | [], entries => entries
  | length :: rest, entries =>
    let size := rest.foldl (· * ·) 1
    let blocks := (List.range length).map fun i =>
      reversed rest ((entries.drop (i * size)).take size)
    (List.range size).flatMap fun position => blocks.map (·.getD position 0)

/-- The tensor with its axes in reverse order. -/
def transpose [Zero α] (t : Tensor α) : Tensor α :=
  ⟨t.shape.reverse, reversed t.shape t.entries⟩

end Tensor

/-- Digit counts above this cannot be carried out. -/
def greatestDigits : Int := 2147483648

variable {α : Type} [Scalar α]

/-- A number rounded to significant digits. Zeros and numbers that are not finite are left alone
whatever the digits are. -/
def roundTo (digits : Int) (x : α) : Except (Error α) α :=
  if x == 0 || !Scalar.isFinite x then pure x
  else if digits < 1 ∨ greatestDigits < digits then throw .digitsOutOfRange
  else pure (Scalar.roundSignificant digits.toNat x)

/-- A list of numbers, each rounded to significant digits. -/
def roundList (digits : Int) (xs : List α) : Except (Error α) (List α) :=
  if digits < 1 then throw (.roundingDigits digits)
  else xs.mapM (roundTo digits)

/-- The entries of a tensor that fills a row of the given length: a list of that length, or a single
number, which fills all of it. Outer axes of length one do not count. -/
def Tensor.filling (length : Nat) (t : Tensor α) : Except (Error α) (List α) :=
  match t.shape.dropWhile (· = 1) with
  | [] => pure ((List.range length).map fun _ => t.entries.getD 0 0)
  | [count] => if count = length then pure t.entries else throw .unevenShape
  | _ => throw .unevenShape

/-- A tensor whose numbers are rounded to significant digits. -/
def Tensor.round (digits : Int) (t : Tensor α) : Except (Error α) (Tensor α) := do
  let entries ← roundList digits t.entries
  return ⟨if t.shape.isEmpty then [1] else t.shape, entries⟩

end Discretization
