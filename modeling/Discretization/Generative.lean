import Discretization.Tensor

/-!
# Derived Supports

Some methods need supports between the existing ones. `GenerativeInfo` says how they are derived:
not at all, or by mapping a basis of offsets in `[0, 1]` into every element, the stretch between two
neighbouring supports. Derived supports are stored under a label of their own, so that they can be
taken away and derived again.
-/

namespace Discretization

/-- How derived supports arise. -/
inductive GenerativeInfo (α : Type) where
  /-- Nothing is known about derived supports. -/
  | undefined
  /-- No supports are derived. -/
  | none
  /-- The same offsets in `[0, 1]` are mapped into every element. -/
  | uniform (basis : List α) (label : Label)
  deriving Repr

namespace GenerativeInfo

variable {α : Type} [Scalar α]

/-- A position in `[lower, upper]` as an offset in `[0, 1]`. -/
def offset (lower upper x : α) : α :=
  (x - lower) / (upper - lower)

/-- Whether some position lies outside `[lower, upper]`. Positions with an undefined one among them
are not compared. -/
def outside (lower upper : α) (positions : List α) : Bool :=
  !positions.any Scalar.isUndefined && positions.any fun x => x < lower || upper < x

/-- Uniformly derived supports at the given positions in `[lower, upper]`. -/
def uniform? (positions : List α) (label : Label) (lower upper : α) :
    Except (Error α) (GenerativeInfo α) :=
  if positions.isEmpty then throw .emptyBasis
  else if ¬ lower < upper then throw (.basisInterval lower upper)
  else if outside lower upper positions then throw .basisOutside
  else if label.isSelector then throw (.basisLabel label)
  else pure (uniform (positions.map (offset lower upper)) label)

/-- The label of the derived supports. -/
def label : GenerativeInfo α → Except (Error α) Label
  | undefined => throw .noDerivedLabel
  | none => pure .noLabel
  | uniform _ label => pure label

/-- The point of the element from `lower` to `upper` at an offset in `[0, 1]`. -/
def point (lower upper offset : α) : α :=
  lower + offset * (upper - lower)

/-- The points at the given offsets of every element between neighbouring supports: element by
element, in the order of the offsets. -/
def points (basis existing : List α) : List α :=
  (existing.zip existing.tail).flatMap fun (lower, upper) => basis.map (point lower upper)

/-- The supports derived from existing ones; `owner` names whose supports they are. -/
def makeSupports (info : GenerativeInfo α) (existing : List α) (owner : String) :
    Except (Error α) (List α) :=
  match info with
  | undefined => throw .noDerivedSupports
  | none => pure []
  | uniform basis _ =>
    if existing.length ≤ 1 then throw (.tooFewElements owner)
    else pure (points basis existing)

/-- The points of the elements between neighbours along the first axis of a tensor of supports. In
rows of one support, every element gets a point at every offset. In longer rows, each column has an
offset of its own, or all have the same. -/
def pointsAcross (basis : List α) (existing : Tensor α) : Except (Error α) (List α) :=
  let width := existing.shape.tail.getLastD 1
  let elements := existing.entries.zip (existing.entries.drop existing.blockSize)
  if width = 1 then
    pure (elements.flatMap fun (lower, upper) => basis.map (point lower upper))
  else if basis.length = 1 ∨ basis.length = width then
    pure (elements.mapIdx fun i (lower, upper) =>
      point lower upper (basis.getD (i % basis.length) 0))
  else throw .unevenShape

/-- The supports derived from a tensor of existing ones, element by element along its first axis. -/
def makeSupportsAcross (info : GenerativeInfo α) (existing : Tensor α) (owner : String) :
    Except (Error α) (List α) :=
  match info with
  | uniform basis _ =>
    if existing.entries.length ≤ 1 then throw (.tooFewElements owner)
    else pointsAcross basis existing
  | other => other.makeSupports existing.entries owner

end GenerativeInfo

end Discretization
