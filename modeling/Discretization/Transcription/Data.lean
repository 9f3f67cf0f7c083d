import Discretization.Finite.Model
import Discretization.Transcription.Entry

/-!
# Transcriptions

The finite model together with what maps into it: the supports of every parameter at the time of the
transcription and one entry per transcribed object. A reduced variable is an infinite variable some
of whose parameters are fixed by a measure; it is addressed by its position.

The second type is that of the coordinates of keys: the numbers themselves, save while the
transcription is built.
-/

namespace Discretization

/-- An infinite variable with some parameters fixed, and its counterparts. The entry is kept with
the variable, where a second list beside a dictionary of positions would keep it apart:
`ReducedVariable.columns` are these. -/
structure ReducedVariable (α : Type) (κ : Type := α) where
  /-- The infinite variable or derivative. -/
  ref : Ref
  /-- The fixed parameters with their values, in the order of the measure. -/
  fixed : List (Ref × α)
  /-- The counterparts over the parameters that are left, in the order of the variable. -/
  entry : Entry κ Nat

namespace ReducedVariable

variable {α κ : Type}

/-- The parameters that are left. -/
def parameters (r : ReducedVariable α κ) : List Ref :=
  r.entry.parameters

/-- The values of the fixed parameters. -/
def values (r : ReducedVariable α κ) : List α :=
  r.fixed.map (·.2)

/-- The reduced variable with the coordinates of its keys replaced. -/
def mapKeys {ι : Type} (f : κ → ι) (r : ReducedVariable α κ) : ReducedVariable α ι :=
  { ref := r.ref, fixed := r.fixed, entry := r.entry.mapKeys f }

end ReducedVariable

/-- The groups of entries. -/
inductive EntryGroup where
  /-- Variables and derivatives. -/
  | vars
  /-- Measures. -/
  | measures
  /-- Constraints. -/
  | constraints
  /-- The evaluation equations of derivatives. -/
  | evaluations
  deriving Repr, DecidableEq

namespace EntryGroup

/-- All groups, in the order of their transcription. -/
def groups : List EntryGroup := [vars, measures, constraints, evaluations]

/-- The name of a group. -/
def name : EntryGroup → String
  | vars => "variable"
  | measures => "measure"
  | constraints => "constraint"
  | evaluations => "derivative_evaluation"

/-- The group with the given name. -/
def ofName? (name : String) : Option EntryGroup :=
  groups.find? (·.name == name)

end EntryGroup

/-- The finite counterpart of an object at a key. -/
inductive Counterpart (α : Type) where
  /-- The position of a variable or constraint. -/
  | index (i : Nat)
  /-- An expression over the variables. -/
  | expression (e : Expression α)
  deriving Repr

/-- Entries by the objects they belong to, in the order of their creation. -/
abbrev Entries (κ β : Type) := List (Ref × Entry κ β)

namespace Entries

variable {κ β : Type}

/-- The entry of an object. -/
def get? (entries : Entries κ β) (ref : Ref) : Option (Entry κ β) :=
  (entries.find? (·.1 = ref)).map (·.2)

/-- Sets the entry of an object, at its place or at the end. -/
def set (entries : Entries κ β) (ref : Ref) (entry : Entry κ β) : Entries κ β :=
  match entries with
  | [] => [(ref, entry)]
  | (r, e) :: rest => if r = ref then (ref, entry) :: rest else (r, e) :: set rest ref entry

/-- The entries with the coordinates of their keys replaced. -/
def mapKeys {ι : Type} (f : κ → ι) (entries : Entries κ β) : Entries ι β :=
  entries.map fun (ref, e) => (ref, e.mapKeys f)

end Entries

/-- A finite model and what maps into it. -/
structure Transcription (α : Type) (κ : Type := α) where
  /-- The finite model. -/
  finite : FiniteModel α
  /-- Whether names show support values. -/
  verbose : Bool
  /-- The parameters with their supports. -/
  snapshot : Snapshot α := []
  /-- The entries of variables and derivatives. -/
  vars : Entries κ Nat := []
  /-- The entries of measures. -/
  measures : Entries κ (Expression α) := []
  /-- The entries of constraints. -/
  constraints : Entries κ Nat := []
  /-- The entries of the evaluation equations of derivatives. -/
  evaluations : Entries κ Nat := []
  /-- The reduced variables, each with its entry. -/
  reduced : List (ReducedVariable α κ) := []

namespace Transcription

variable {α κ : Type}

/-- The transcription with the coordinates of all keys replaced. -/
def mapKeys {ι : Type} (f : κ → ι) (t : Transcription α κ) : Transcription α ι :=
  { finite := t.finite
    verbose := t.verbose
    snapshot := t.snapshot
    vars := t.vars.mapKeys f
    measures := t.measures.mapKeys f
    constraints := t.constraints.mapKeys f
    evaluations := t.evaluations.mapKeys f
    reduced := t.reduced.map (·.mapKeys f) }

/-- The transcription as text. -/
def text (t : Transcription α) : String :=
  s!"TranscriptionModel({t.finite.text})"

/-- All entries of a group. -/
def entries (t : Transcription α) : EntryGroup → Entries α (Counterpart α)
  | .vars => t.vars.map fun (ref, e) => (ref, e.map .index)
  | .measures => t.measures.map fun (ref, e) => (ref, e.map .expression)
  | .constraints => t.constraints.map fun (ref, e) => (ref, e.map .index)
  | .evaluations => t.evaluations.map fun (ref, e) => (ref, e.map .index)

end Transcription

end Discretization
