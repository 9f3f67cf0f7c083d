import Discretization.Ref
import Discretization.Scalar

/-!
# Coordinates of Keys

Objects are transcribed at keys, which are lists of coordinates. Most coordinates are read off the
grid that the supports of some parameters span; the others are computed or given.

A coordinate is known by its number. Only an undefined number, which is not equal to itself, needs
more: it is found again at the place of the grid where it was read, and nowhere else. Each list of
parameters spans a grid of its own, so the same support has different places on different grids.
-/

namespace Discretization

/-- A place on one axis of a grid. -/
structure GridPlace where
  /-- The parameters that span the grid. -/
  grid : List Ref
  /-- The position among the supports of the axis. -/
  position : Nat
  deriving Repr, DecidableEq

/-- One number of a key. -/
structure Coordinate (α : Type) where
  /-- The number. -/
  value : α
  /-- The place where the number was read, if it was read off a grid. -/
  place : Option GridPlace := none
  deriving Repr

namespace Coordinate

variable {α : Type}

/-- Coordinates of the same parameter agree if their numbers are equal or were read at the same
place. -/
def agree [BEq α] (a b : Coordinate α) : Bool :=
  a.value == b.value || (a.place.isSome && a.place == b.place)

instance [BEq α] : BEq (Coordinate α) := ⟨agree⟩

/-- The coordinates that an axis of a grid runs through. -/
def axis (grid : List Ref) (values : List α) : List (Coordinate α) :=
  values.mapIdx fun position value => { value, place := some { grid, position } }

/-- Numbers that were read off no grid. -/
def ofValues (values : List α) : List (Coordinate α) :=
  values.map fun value => { value }

end Coordinate

end Discretization
