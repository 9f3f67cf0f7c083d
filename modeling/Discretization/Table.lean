/-!
# Tables

Objects by index. Indices count up from one and are never used twice: an erased row leaves a gap.
-/

namespace Discretization

/-- Objects by index, in the order of their creation. -/
structure Table (β : Type) where
  /-- The index given out last. -/
  last : Nat := 0
  /-- The live objects with their indices. -/
  rows : List (Nat × β) := []
  deriving Repr

namespace Table

variable {β : Type}

/-- The index that the next object gets. -/
def next (t : Table β) : Nat :=
  t.last + 1

/-- Adds an object under the next index. -/
def push (t : Table β) (object : β) : Table β :=
  ⟨t.next, t.rows ++ [(t.next, object)]⟩

/-- The object at an index, if it is live. -/
def get? (t : Table β) (index : Int) : Option β :=
  (t.rows.find? fun row => (row.1 : Int) = index).map (·.2)

/-- Replaces the object at an index. -/
def modify (t : Table β) (index : Int) (f : β → β) : Table β :=
  { t with rows := t.rows.map fun row => if (row.1 : Int) = index then (row.1, f row.2) else row }

/-- Removes the object at an index. -/
def erase (t : Table β) (index : Int) : Table β :=
  { t with rows := t.rows.filter fun row => (row.1 : Int) ≠ index }

/-- The live indices in order. -/
def indices (t : Table β) : List Nat :=
  t.rows.map (·.1)

/-- The live objects in order. -/
def objects (t : Table β) : List β :=
  t.rows.map (·.2)

end Table

end Discretization
