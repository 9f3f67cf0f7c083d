import Discretization.Error

/-!
# Infinite Domains

What parameters range over: intervals, distributions, and collections with one scalar domain per
dimension. A domain knows its bounds, if it is scalar, and the method by which supports are
generated when none is asked for.

Collections hold scalar domains only, so a scalar domain is a type of its own and
`Domain.collection?` is the check that a list of domains can form a collection.
-/

namespace Discretization

/-- How samples of a distribution arise. A sample is the list of its numbers in row-major order. -/
inductive Sampler (α : Type) where
  /-- Recorded samples, replayed over and over; the position lies on the tape with the given
  number. -/
  | recorded (samples : List (List α)) (tape : Nat)
  /-- Samples `location + scale * u` with a uniform fraction `u` for each entry. -/
  | scaled (location : List α) (scale : α)
  deriving Repr

/-- A distribution: the ends of its support, if it is scalar, and its samples. -/
structure Distribution (α : Type) where
  /-- The lower end of the support. -/
  lower : α
  /-- The upper end of the support. -/
  upper : α
  /-- How samples arise. -/
  sampler : Sampler α
  deriving Repr

/-- The domains of a single parameter. -/
inductive ScalarDomain (α : Type) where
  /-- The closed interval `[lower, upper]`. -/
  | interval (lower upper : α)
  /-- The support of a univariate distribution. -/
  | distribution (d : Distribution α)
  /-- A domain of a kind that is added from outside. -/
  | custom (kind : String) (method : Option Label) (bounds : Option (α × α))
  /-- A domain of which nothing is known. -/
  | unspecified
  deriving Repr

/-- All domains. -/
inductive Domain (α : Type) where
  /-- The domain of a single parameter. -/
  | scalar (d : ScalarDomain α)
  /-- The support of a multivariate or matrix distribution. -/
  | multivariate (d : Distribution α)
  /-- One scalar domain per dimension. -/
  | collection (parts : List (ScalarDomain α))
  deriving Repr

/-- The kind of intervals. -/
def intervalKind : String := "interval"

/-- The kind of univariate distributions. -/
def univariateKind : String := "univariate_distribution"

/-- The kind of multivariate distributions. -/
def multivariateKind : String := "multivariate_distribution"

/-- The kind of collections. -/
def collectionKind : String := "collection"

variable {α : Type}

namespace ScalarDomain

/-- The kind under which generation methods are registered. -/
def kind : ScalarDomain α → String
  | interval _ _ => intervalKind
  | distribution _ => univariateKind
  | custom kind _ _ => kind
  | unspecified => ""

/-- The name of the domain's type. -/
def typeName : ScalarDomain α → String
  | interval _ _ => "IntervalDomain"
  | distribution _ => "UniDistributionDomain"
  | custom _ _ _ => "CustomDomain"
  | unspecified => "InfiniteDomain"

/-- The generation method used when none is asked for; a custom domain may leave it open. -/
def defaultMethod : ScalarDomain α → Except (Error α) (Option Label)
  | interval _ _ => pure (some .uniformGrid)
  | distribution _ => pure (some .weightedSample)
  | custom _ method _ => pure method
  | unspecified => throw .noDefaultMethod

/-- The least and the greatest value. -/
def bounds : ScalarDomain α → Except (Error α) (α × α)
  | interval lower upper => pure (lower, upper)
  | distribution d => pure (d.lower, d.upper)
  | custom _ _ (some bounds) => pure bounds
  | custom kind _ none => throw (.noBounds kind)
  | unspecified => throw (.noBounds "")

/-- The distribution that the domain is the support of. -/
def distribution? : ScalarDomain α → Option (Distribution α)
  | distribution d => some d
  | _ => none

end ScalarDomain

namespace Domain

/-- The closed interval from `lower` to `upper`; the bounds must be in order. -/
def interval? [LE α] [DecidableLE α] (lower upper : α) : Except (Error α) (Domain α) :=
  if lower ≤ upper then pure (scalar (.interval lower upper))
  else throw (.intervalBounds lower upper)

/-- The collection of the given domains: at least one, and scalar ones only. -/
def collection? (domains : List (Domain α)) : Except (Error α) (Domain α) := do
  if domains.isEmpty then throw .emptyCollection
  let parts ← domains.mapM fun
    | scalar d => pure d
    | multivariate _ => throw (.notScalarPart "MultiDistributionDomain")
    | collection _ => throw (.notScalarPart "CollectionDomain")
  return collection parts

/-- The kind under which generation methods are registered. -/
def kind : Domain α → String
  | scalar d => d.kind
  | multivariate _ => multivariateKind
  | collection _ => collectionKind

/-- The name of the domain's type. -/
def typeName : Domain α → String
  | scalar d => d.typeName
  | multivariate _ => "MultiDistributionDomain"
  | collection _ => "CollectionDomain"

/-- The number of dimensions of a collection. -/
def size? : Domain α → Option Nat
  | collection parts => some parts.length
  | _ => none

/-- The generation method used when none is asked for. A collection of intervals uses a grid, a
collection of distributions their samples, and any other collection each part's own method. -/
def defaultMethod : Domain α → Except (Error α) (Option Label)
  | scalar d => d.defaultMethod
  | multivariate _ => pure (some .weightedSample)
  | collection parts =>
    pure (some (
      if parts.all (·.kind == intervalKind) then .uniformGrid
      else if parts.all (·.kind == univariateKind) then .weightedSample
      else .mixture))

/-- The least and the greatest value of a scalar domain. -/
def bounds : Domain α → Except (Error α) (α × α)
  | scalar d => d.bounds
  | multivariate _ => throw (.noBounds multivariateKind)
  | collection _ => throw (.noBounds collectionKind)

/-- Whether each value lies within the bounds, which belong to the domain. -/
def contains [Scalar α] (domain : Domain α) (values : List α) : Except (Error α) (List Bool) := do
  let (lower, upper) ← domain.bounds
  return values.map (Scalar.between lower upper)

end Domain

end Discretization
