import Discretization.Error

/-!
# Support Maps

The supports of a parameter: values in increasing order, each with its set of labels. Values that
compare equal share one entry, which keeps the form under which the value was first stored.

Positions are found by bisection. On a map whose values are strictly increasing, bisection counts
the values below (or not above) the one in question, so insertion keeps the order. A value that does
not equal itself matches no entry: it is always inserted anew and can never be removed.
-/

namespace Discretization

/-- A stored support: a value and its labels, without repetitions. -/
structure Support (α : Type) where
  /-- The value. -/
  value : α
  /-- Why the value is stored. -/
  labels : List Label
  deriving Repr

/-- Supports by value. A value and its labels share a row, where a sorted list of values beside a
dictionary of their labels would keep them apart: `SupportMap.Columns` is that layout, and additions
and removals keep the two together. -/
structure SupportMap (α : Type) where
  /-- The supports in the order of their values. -/
  supports : List (Support α) := []
  deriving Repr

/-- The position in `[lower, upper]` at which `goesRight` stops to hold, found by halving the
interval. -/
def bisect (goesRight : Nat → Bool) (lower upper : Nat) : Nat :=
  if lower < upper then
    let middle := (lower + upper) / 2
    if goesRight middle then bisect goesRight (middle + 1) upper
    else bisect goesRight lower middle
  else lower
termination_by upper - lower

namespace SupportMap

variable {α : Type} [Scalar α]

/-- The map without supports. -/
def empty : SupportMap α := {}

/-- The number of supports. -/
def size (m : SupportMap α) : Nat :=
  m.supports.length

/-- The values in order. -/
def values (m : SupportMap α) : List α :=
  m.supports.map (·.value)

/-- The labels of a value, if it is stored. -/
def labels? (m : SupportMap α) (value : α) : Option (List Label) :=
  (m.supports.find? (·.value == value)).map (·.labels)

/-- Whether a value is stored. -/
def contains (m : SupportMap α) (value : α) : Bool :=
  m.supports.any (·.value == value)

/-- The labels of a value that must be stored. -/
def labels (m : SupportMap α) (value : α) : Except (Error α) (List Label) :=
  match m.labels? value with
  | some labels => pure labels
  | none => throw (.unlabelled value)

/-- The number of values that are not above `value`. -/
def positionAfter (supports : List (Support α)) (value : α) : Nat :=
  bisect (fun i => match supports[i]? with
    | some support => !decide (value < support.value)
    | none => false) 0 supports.length

/-- The number of values below `value`. -/
def positionBefore (supports : List (Support α)) (value : α) : Nat :=
  bisect (fun i => match supports[i]? with
    | some support => decide (support.value < value)
    | none => false) 0 supports.length

/-- Attaches a label to a value; the flag tells whether the value is new. -/
def add (m : SupportMap α) (value : α) (label : Label) : Bool × SupportMap α :=
  if m.contains value then
    (false, ⟨m.supports.map fun support =>
      if support.value == value then { support with labels := label.insert support.labels }
      else support⟩)
  else
    (true, ⟨m.supports.insertIdx (positionAfter m.supports value) ⟨value, [label]⟩⟩)

/-- Attaches a label to each of the values; the flag tells whether any of them is new. -/
def addAll (m : SupportMap α) (values : List α) (label : Label) : Bool × SupportMap α :=
  values.foldl
    (fun (anyNew, m) value =>
      let (isNew, m) := m.add value label
      (anyNew || isNew, m))
    (false, m)

/-- The position of a value, if bisection finds it. -/
def position? (supports : List (Support α)) (value : α) : Option Nat :=
  let position := positionBefore supports value
  match supports[position]? with
  | some support => if support.value == value then some position else none
  | none => none

/-- The map without a value that must be stored. -/
def remove (m : SupportMap α) (value : α) : Except (Error α) (SupportMap α) :=
  match position? m.supports value with
  | some position => pure ⟨m.supports.eraseIdx position⟩
  | none => throw (.missingKey value)

/-- The supports one of whose labels is covered by a selector. -/
def select (m : SupportMap α) (selector : Label) : List (Support α) :=
  m.supports.filter fun support => selector.coversAny support.labels

/-- Whether some support carries an internal label. -/
def hasInternal (m : SupportMap α) : Bool :=
  m.supports.any fun support => Label.hidden.coversAny support.labels

/-- Goes through `rest`, with `kept` gone through already: a support whose labels are all covered by
the selectors is removed, and any other loses its covered labels. A value that cannot be found for
removal ends the pass and is reported. -/
def stripFrom (selectors : List Label) (kept rest : List (Support α)) :
    List (Support α) × Option α :=
  match rest with
  | [] => (kept, none)
  | support :: rest =>
    if Label.allCovered selectors support.labels then
      match position? (kept ++ support :: rest) support.value with
      | some _ => stripFrom selectors kept rest
      | none => (kept ++ support :: rest, some support.value)
    else
      let support :=
        { support with labels := support.labels.filter fun label =>
            !Label.coveredBy selectors label }
      stripFrom selectors (kept ++ [support]) rest

/-- The map without the labels that the selectors cover and without supports that have no other
label, with the value at which the pass ended early, if it did. -/
def strip (m : SupportMap α) (selectors : List Label) : SupportMap α × Option α :=
  let (supports, failed) := stripFrom selectors [] m.supports
  (⟨supports⟩, failed)

/-- The values that carry some label besides `label`: the supports that others are derived from. -/
def baseValues (m : SupportMap α) (label : Label) : List α :=
  (m.supports.filter fun support => support.labels != [label]).map (·.value)

end SupportMap

end Discretization
