import Discretization.Domain
import Discretization.Random
import Discretization.Settings
import Discretization.Tensor

/-!
# Environment

Everything beside the models that operations read or change: settings, random sources, the registry
of support generators, the number of the next measure label, and the journal. An operation is a
state transformer that leaves a state behind also when it fails, since a failed operation may have
changed something before it failed.
-/

namespace Discretization

/-- The rules by which supports are generated. -/
inductive Generator (α : Type) where
  /-- Equidistant values between the bounds. -/
  | grid
  /-- Values drawn uniformly between the bounds. -/
  | monteCarlo
  /-- Samples of the domain's univariate distribution. -/
  | samples
  /-- Samples of the domain's univariate distribution, with a warning the first time. -/
  | unweightedSamples
  /-- Samples of the domain's distribution, one per column. -/
  | columns
  /-- Values of each part of a collection, one part per row. -/
  | parts
  /-- A function that a caller registers. It is given the domain, the method, the number of values,
  the significant digits and the random source, and gives values and the source as it leaves it. -/
  | custom (f : Domain α → Label → Nat → Int → Source α → Except (Error α) (Tensor α × Source α))

/-- The generator of the numbers `first + step * k`, rounded, whatever the domain. -/
def Generator.sequence {α : Type} [Scalar α] (first step : α) : Generator α :=
  .custom fun _ _ count digits source => do
    let values := (List.range count).map fun k => first + step * Scalar.ofNat k
    return (← (Tensor.vector values).round digits, source)

/-- Generators by domain kind and method, in the order of their registration. -/
abbrev GeneratorRegistry (α : Type) := List ((String × Label) × Generator α)

namespace GeneratorRegistry

variable {α : Type}

/-- The generators that are registered from the start. -/
def builtin : GeneratorRegistry α :=
  [((intervalKind, .uniformGrid), .grid),
    ((intervalKind, .monteCarlo), .monteCarlo),
    ((univariateKind, .weightedSample), .samples),
    ((univariateKind, .monteCarlo), .unweightedSamples),
    ((multivariateKind, .weightedSample), .columns),
    ((collectionKind, .uniformGrid), .parts),
    ((collectionKind, .monteCarlo), .parts),
    ((collectionKind, .weightedSample), .parts),
    ((collectionKind, .mixture), .parts)]

/-- The generator for a kind and a method. -/
def get? (registry : GeneratorRegistry α) (kind : String) (method : Label) :
    Option (Generator α) :=
  (registry.find? (·.1 = (kind, method))).map (·.2)

/-- Registers a generator, in the place of an earlier one for the same kind and method. -/
def set (registry : GeneratorRegistry α) (key : String × Label) (generator : Generator α) :
    GeneratorRegistry α :=
  match registry with
  | [] => [(key, generator)]
  | (k, g) :: rest =>
    if k = key then (key, generator) :: rest else (k, g) :: set rest key generator

/-- The methods registered for a kind. -/
def methods (registry : GeneratorRegistry α) (kind : String) : List Label :=
  (registry.filter (·.1.1 = kind)).map (·.1.2)

end GeneratorRegistry

/-- What operations read and change beside the models. -/
structure Environment (α : Type) where
  /-- Settings and preferences. -/
  settings : Settings := {}
  /-- Random sources by their number. -/
  sources : List (Source α) := []
  /-- The source that a random number generator is for a seed. -/
  seeding : Seed → Source α := fun _ => .replay [] 0
  /-- The source used when none is given, once it is made. -/
  shared : Option Nat := none
  /-- The number of unseeded sources made so far. -/
  unseeded : Nat := 0
  /-- How many samples were taken from each tape of recorded samples. -/
  tapes : List Nat := []
  /-- The support generators. -/
  generators : GeneratorRegistry α := .builtin
  /-- Whether the warning about unweighted sampling was given. -/
  warnedUnweighted : Bool := false
  /-- The number of the next measure label. -/
  nextMeasure : Nat := 1
  /-- Warnings and log records. -/
  journal : Journal := {}

/-- An operation on the environment. -/
abbrev EnvironmentAction (α β : Type) := EStateM (Error α) (Environment α) β

/-- A check that may fail and changes nothing. -/
def EnvironmentAction.check {α β : Type} (result : Except (Error α) β) : EnvironmentAction α β :=
  match result with
  | .ok b => pure b
  | .error e => throw e

namespace Environment

variable {α : Type}

/-- Gives a warning. -/
def warn (warning : Warning) : EnvironmentAction α Unit :=
  modify fun e =>
    { e with journal := { e.journal with warnings := e.journal.warnings ++ [warning] } }

/-- Logs records. -/
def log (records : List LogRecord) : EnvironmentAction α Unit :=
  modify fun e =>
    { e with journal := { e.journal with records := e.journal.records ++ records } }

/-- Empties the journal. -/
def clearJournal (e : Environment α) : Environment α :=
  { e with journal := {} }

/-- The number of supports to generate. -/
def defaultCount : EnvironmentAction α Int := do
  let (count, records) := (← get).settings.defaultCount
  log records
  return count

/-- The significant digits to round to. -/
def defaultDigits : EnvironmentAction α Int := do
  let (digits, records) := (← get).settings.defaultDigits
  log records
  return digits

/-- A measure label that was not given out before. -/
def freshLabel : EnvironmentAction α Label := do
  let id := (← get).nextMeasure
  modify fun e => { e with nextMeasure := id + 1 }
  return .ofMeasure id

/-- A new tape for recorded samples. -/
def newTape : EnvironmentAction α Nat := do
  let tape := (← get).tapes.length
  modify fun e => { e with tapes := e.tapes ++ [0] }
  return tape

/-- A new random source. -/
def newSource (source : Source α) : EnvironmentAction α Nat := do
  let number := (← get).sources.length
  modify fun e => { e with sources := e.sources ++ [source] }
  return number

/-- Makes a source the shared one. -/
def share (number : Nat) : EnvironmentAction α Unit :=
  modify fun e => { e with shared := some number }

/-- A new source for a seed, which must not be negative; without a seed, one of its own. -/
def seededSource (seed : Option Int) : EnvironmentAction α Nat := do
  match seed with
  | some (.ofNat n) => newSource ((← get).seeding (.given n))
  | some (.negSucc _) => throw .unusableSeed
  | none =>
    let count := (← get).unseeded
    modify fun e => { e with unseeded := count + 1 }
    newSource ((← get).seeding (.entropy count))

/-- Makes a new source for a seed the shared one. -/
def seedShared (seed : Option Int) : EnvironmentAction α Nat := do
  let number ← seededSource seed
  share number
  return number

/-- The shared source; the first use makes it, from the seed of the settings if there is one. -/
def sharedSource : EnvironmentAction α Nat := do
  match (← get).shared with
  | some number => return number
  | none =>
    let seed ← EnvironmentAction.check ((← get).settings.seed?)
    seedShared (seed.map Int.ofNat)

/-- The given source, or the shared one. -/
def resolveSource (source : Option Nat) : EnvironmentAction α Nat := do
  match source with
  | some number => return number
  | none => sharedSource

/-- What is made of a source, which is left as the function leaves it. -/
def drawing {β : Type} (source : Nat) (f : Source α → Except (Error α) (β × Source α)) :
    EnvironmentAction α β := do
  let current := ((← get).sources[source]?).getD (.replay [] 0)
  let (result, next) ← EnvironmentAction.check (f current)
  modify fun e => { e with sources := e.sources.set source next }
  return result

variable [Scalar α]

/-- Numbers spread uniformly over `[lower, upper)`, drawn from a source. -/
def uniform (source : Nat) (lower upper : α) (count : Nat) : EnvironmentAction α (List α) :=
  drawing source fun current => current.uniform lower upper count

/-- The next samples of a distribution, each with its numbers in row-major order. -/
def sample (d : Distribution α) (count source : Nat) : EnvironmentAction α (List (List α)) := do
  match d.sampler with
  | .recorded samples tape =>
    let start := ((← get).tapes[tape]?).getD 0
    modify fun e => { e with tapes := e.tapes.set tape (start + count) }
    return (List.range count).map fun k => samples.getD ((start + k) % samples.length) []
  | .scaled location scale =>
    let width := location.length
    let fractions ← uniform source 0 1 (count * width)
    return (List.range count).map fun k =>
      location.mapIdx fun i entry => entry + scale * fractions.getD (k * width + i) 0

end Environment

end Discretization
