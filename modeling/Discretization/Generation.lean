import Discretization.Environment
import Discretization.Interpolation
import Discretization.Tensor

/-!
# Generation of Supports

Supports are generated by the generator that is registered for the kind of the domain and the
method. Scalar domains give a list of values; other domains give one row per dimension. The method
is also the label under which the supports are stored.

A collection generates row by row: each part uses the method asked for, or its own default when the
method is a mixture.
-/

namespace Discretization.Generation

open Environment EnvironmentAction

variable {α : Type} [Scalar α]

/-- The generator for a kind and method, with the method, which must be registered. -/
def lookup (typeName kind : String) (method : Option Label) :
    EnvironmentAction α (Generator α × Label) := do
  let registry := (← get).generators
  match method.bind fun label => (registry.get? kind label).map fun g => (g, label) with
  | some found => return found
  | none =>
    let registered := (registry.methods kind).map Label.text
    throw (.noGenerator typeName kind method (registered.mergeSort fun a b => decide (a ≤ b)))

/-- Samples of a univariate distribution, rounded. Each must be a single number. -/
def univariate (d : Option (Distribution α)) (count : Nat) (digits : Int) (source : Nat) :
    EnvironmentAction α (Tensor α) := do
  match d with
  | none => throw .noDistribution
  | some d =>
    let samples ← sample d count source
    if samples.any (·.length ≠ 1) then throw .unevenShape
    check ((Tensor.vector samples.flatten).round digits)

/-- Samples of a distribution, one per column, rounded. All must have the same length. -/
def multivariate (d : Option (Distribution α)) (count : Nat) (digits : Int) (source : Nat) :
    EnvironmentAction α (Tensor α) := do
  match d with
  | none => throw .noDistribution
  | some d =>
    let samples ← sample d count source
    let width := (samples.head?.map List.length).getD 0
    if samples.any (·.length ≠ width) then throw .unevenShape
    check ((Tensor.matrix width samples).transpose.round digits)

/-- Warns, the first time, that Monte-Carlo supports of a distribution are its own samples. -/
def warnUnweighted : EnvironmentAction α Unit := do
  unless (← get).warnedUnweighted do
    warn .unweightedSampling
    modify fun e => { e with warnedUnweighted := true }

/-- What a generator makes of a scalar domain. -/
def ofScalar (generator : Generator α) (domain : ScalarDomain α) (method : Label) (count : Nat)
    (digits : Int) (source : Nat) : EnvironmentAction α (Tensor α) := do
  match generator with
  | .grid =>
    let (lower, upper) ← check domain.bounds
    check ((Tensor.vector (grid lower upper count)).round digits)
  | .monteCarlo =>
    let (lower, upper) ← check domain.bounds
    let values ← uniform source lower upper count
    check ((Tensor.vector values).round digits)
  | .samples => univariate domain.distribution? count digits source
  | .unweightedSamples =>
    warnUnweighted
    univariate domain.distribution? count digits source
  | .columns => multivariate domain.distribution? count digits source
  | .parts => throw .noParts
  | .custom f => drawing source (f (.scalar domain) method count digits)

/-- Values for a scalar domain; without a method, or with the selector of all, by its default
method. -/
def scalarValues (domain : ScalarDomain α) (method : Option Label) (count : Nat) (digits : Int)
    (source : Nat) : EnvironmentAction α (Tensor α) := do
  let method ← match method with
    | some label =>
      if label.kind = .all then check domain.defaultMethod else pure (some label)
    | none => check domain.defaultMethod
  let (generator, method) ← lookup domain.typeName domain.kind method
  ofScalar generator domain method count digits source

/-- Values for the parts of a collection, one row per part. -/
def rows (parts : List (ScalarDomain α)) (method : Option Label) (count : Nat) (digits : Int)
    (source : Nat) : EnvironmentAction α (Tensor α) := do
  let rows ← parts.mapM fun part => do
    let values ← scalarValues part method count digits source
    check (values.filling count)
  return Tensor.matrix count rows

/-- What a generator makes of a domain. -/
def ofDomain (generator : Generator α) (domain : Domain α) (method : Label) (count : Nat)
    (digits : Int) (source : Nat) : EnvironmentAction α (Tensor α) := do
  match domain, generator with
  | .scalar d, generator => ofScalar generator d method count digits source
  | domain, .custom f => drawing source (f domain method count digits)
  | .multivariate d, .columns => multivariate (some d) count digits source
  | .collection parts, .parts =>
    rows parts (if method = .mixture then none else some method) count digits source
  | domain, .grid | domain, .monteCarlo =>
    let _ ← check domain.bounds
    throw .noParts
  | _, .parts => throw .noParts
  | _, _ => throw .noDistribution

/-- Generates supports for a domain and gives them with the method that made them. Without a method,
or with the selector of all, the domain's default method is used; counts and digits that are left
open come from the settings. -/
def generate (domain : Domain α) (method : Option Label) (count digits : Option Int)
    (source : Option Nat) : EnvironmentAction α (Tensor α × Label) := do
  let method ← match method with
    | some label =>
      if label.kind = .all then check domain.defaultMethod else pure (some label)
    | none => check domain.defaultMethod
  let count ← match count with
    | some count => pure count
    | none => defaultCount
  let digits ← match digits with
    | some digits => pure digits
    | none => defaultDigits
  if count < 1 then throw (.supportCount count)
  if digits < 1 then throw (.supportDigits digits)
  let (generator, method) ← lookup domain.typeName domain.kind method
  let source ← resolveSource source
  let values ← ofDomain generator domain method count.toNat digits source
  return (values, method)

/-- Registers a generator for every combination of a kind and a method. A selector is refused, after
the combinations before it were registered. -/
def register (kinds : List String) (methods : List Label) (generator : Generator α) :
    EnvironmentAction α Unit := do
  for kind in kinds do
    for method in methods do
      if method.isSelector then throw (.generatorLabel method)
      modify fun e => { e with generators := e.generators.set (kind, method) generator }

end Discretization.Generation
