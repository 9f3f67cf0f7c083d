import Discretization.Error

/-!
# Random Sources

Sampling draws fractions in `[0, 1)` from a source. A source is a place in a sequence of fractions:
a given list that is replayed over and over, or what a random number generator gives. Which
fractions a generator gives for a seed is not settled here; whoever runs the library brings them
along.
-/

namespace Discretization

/-- A source of fractions. -/
inductive Source (α : Type) where
  /-- Fractions that are replayed from the start when they are used up. -/
  | replay (fractions : List α) (position : Nat)
  /-- The fractions of a random number generator, from a position on. -/
  | stream (fraction : Nat → α) (position : Nat)

/-- What a random number generator starts from. -/
inductive Seed where
  /-- A number that the caller gives. -/
  | given (number : Nat)
  /-- Entropy of the machine, different each time it is asked for. -/
  | entropy (request : Nat)
  deriving Repr, DecidableEq

namespace Source

variable {α : Type} [Scalar α]

/-- The next fraction and the source after it. -/
def next : Source α → α × Source α
  | replay fractions position =>
    (fractions.getD (position % fractions.length) 0, replay fractions (position + 1))
  | stream fraction position => (fraction position, stream fraction (position + 1))

/-- The next `count` fractions and the source after them. -/
def draw (source : Source α) : (count : Nat) → List α × Source α
  | 0 => ([], source)
  | count + 1 =>
    let (fraction, source) := source.next
    let (fractions, source) := source.draw count
    (fraction :: fractions, source)

/-- The next `count` numbers spread uniformly over `[lower, upper)`. The width of the range must be
finite. -/
def uniform (source : Source α) (lower upper : α) (count : Nat) :
    Except (Error α) (List α × Source α) :=
  if Scalar.isFinite (upper - lower) then
    let (fractions, source) := source.draw count
    pure (fractions.map fun fraction => lower + (upper - lower) * fraction, source)
  else throw .rangeOverflow

end Source

end Discretization
