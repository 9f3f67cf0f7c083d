import Discretization.Value

/-!
# References

The objects of a model are addressed by references: the model, the kind of object, and its index
among the objects of that kind. A reference may point at an object that was deleted or never
existed.
-/

namespace Discretization

/-- The kinds of objects that a reference can point at. -/
inductive EntityKind where
  /-- An infinite parameter. -/
  | parameter
  /-- A variable indexed by parameters. -/
  | infiniteVariable
  /-- A variable without parameters. -/
  | finiteVariable
  /-- An infinite variable at one point. -/
  | pointVariable
  /-- The derivative of an infinite variable. -/
  | derivative
  /-- A measure of a function over parameters. -/
  | measure
  /-- An infinite variable with some parameters fixed, created by a transcription. -/
  | reducedVariable
  /-- A constraint. -/
  | constraint
  deriving Repr, DecidableEq

namespace EntityKind

/-- All kinds, in the order of their numbers. -/
def kinds : List EntityKind :=
  [parameter, infiniteVariable, finiteVariable, pointVariable, derivative, measure, reducedVariable,
    constraint]

/-- The kind's name. -/
def name : EntityKind → String
  | parameter => "PARAMETER"
  | infiniteVariable => "INFINITE_VARIABLE"
  | finiteVariable => "FINITE_VARIABLE"
  | pointVariable => "POINT_VARIABLE"
  | derivative => "DERIVATIVE"
  | measure => "MEASURE"
  | reducedVariable => "REDUCED_VARIABLE"
  | constraint => "CONSTRAINT"

/-- The kind with the given name. -/
def ofName? (name : String) : Option EntityKind :=
  kinds.find? fun kind => kind.name == name

/-- The kind's name in lower case. -/
def lowerName (kind : EntityKind) : String :=
  String.ofList (kind.name.toList.map Char.toLower)

/-- The number of the kind, from one. -/
def number (kind : EntityKind) : Nat :=
  kinds.idxOf kind + 1

/-- Whether objects of the kind are indexed by the parameters of an infinite variable. -/
def isInfiniteVariable : EntityKind → Bool
  | infiniteVariable | derivative => true
  | _ => false

end EntityKind

/-- A reference to an object of a model. -/
structure Ref where
  /-- The model that the object belongs to. -/
  model : Nat
  /-- The kind of the object. -/
  kind : EntityKind
  /-- The index of the object among those of its kind. -/
  index : Int
  deriving Repr, DecidableEq

namespace Ref

/-- The reference as messages show it. -/
def shown (ref : Ref) : String :=
  "EntityRef(kind=<IndexKind." ++ ref.kind.name ++ ": " ++ toString ref.kind.number
    ++ ">, index=" ++ toString ref.index ++ ")"

/-- How deep a measure can lie inside other measures: above the rank of everything that was created
before it. Objects of other kinds have rank zero. -/
def rank (ref : Ref) : Nat :=
  if ref.kind = .measure then ref.index.toNat + 1 else 0

end Ref

/-- What a caller passes where a reference is expected. -/
abbrev Handle := Argument Ref

namespace Handle

/-- The argument as messages show it. -/
def shown : Handle → String
  | .given ref => ref.shown
  | .mistyped value => value.shown

/-- Whether two arguments are the same reference or equal values. -/
def equal : Handle → Handle → Bool
  | .given ref, .given other => ref = other
  | .mistyped value, .mistyped other => value.equal other
  | _, _ => false

end Handle

/-- A reference is passed as it is. -/
instance : Coe Ref Handle := ⟨.given⟩

end Discretization
