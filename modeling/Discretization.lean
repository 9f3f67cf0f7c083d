import Discretization.Decimal.Reader
import Discretization.Interpolation.Columns
import Discretization.Proofs.Answers
import Discretization.Proofs.Atomicity
import Discretization.Proofs.Bounds
import Discretization.Proofs.Derivations
import Discretization.Proofs.Dictionaries
import Discretization.Proofs.Events
import Discretization.Proofs.Flags
import Discretization.Proofs.Freshness
import Discretization.Proofs.Keys
import Discretization.Proofs.Meanings
import Discretization.Proofs.Placements
import Discretization.Proofs.Readiness
import Discretization.Proofs.Reductions
import Discretization.Proofs.Retention
import Discretization.Proofs.Selections
import Discretization.Proofs.Stencils
import Discretization.Scalar.Double
import Discretization.Session
import Discretization.Proofs.Additions
import Discretization.Proofs.Registrations
import Discretization.Proofs.Contributions
import Discretization.Proofs.Nearest
import Discretization.Proofs.Acceptance
import Discretization.Proofs.Deletions
import Discretization.Proofs.Determinations
import Discretization.Proofs.Polynomials
import Discretization.Proofs.Materializations
import Discretization.Proofs.Permutations
import Discretization.Proofs.Cancellations
import Discretization.Proofs.Completeness
import Discretization.Proofs.Coverage
import Discretization.Proofs.Queries
import Discretization.Proofs.Projections
import Discretization.Proofs.Replenishments
import Discretization.Proofs.Significance
import Discretization.Proofs.Quadrature
import Discretization.Proofs.Collections
import Discretization.Proofs.Elements
import Discretization.Proofs.Recollections
