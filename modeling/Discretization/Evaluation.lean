import Discretization.Store.Update

/-!
# Evaluation of Derivatives

The evaluation equations of a derivative are built from the current supports of its parameter, after
the derived supports were put in place, and stored on the model until a change of those supports
makes them obsolete.
-/

namespace Discretization.Evaluation

open Operation

variable {α : Type} [Scalar α]

/-- The equations of a derivative of `variableRef` with respect to a parameter, by the parameter's
method and current supports. -/
def build (derivative variableRef : Ref) (p : Parameter α) : Except (Error α) (List (Equation α)) :=
  match p.method with
  | .finiteDifference technique =>
    Equation.differences derivative variableRef p.supports.values technique
  | .orthogonalCollocation _ => do
    Equation.collocation derivative variableRef p.supports (← p.info.label) p.name
  | .undefined => throw .noEvaluation

/-- The stored equations of a derivative; they are built if there are none. -/
def evaluate (derivative : Ref) : Operation α (List (Equation α)) := do
  let derivative ← query (·.ownedOf [.derivative] derivative)
  match (← model).equations? derivative.index with
  | some equations => return equations
  | none =>
    let object ← query (·.derivative derivative)
    Store.addGenerative object.parameter
    let parameter ← query (·.parameter object.parameter)
    let equations ← check (build derivative object.ref parameter)
    modifyModel fun m =>
      (m.storeEquations derivative.index.toNat equations).modifyParameter object.parameter
        fun q => { q with hasEquations := true }
    return equations

/-- Evaluates every derivative of the model that has no stored equations when its turn comes. -/
def evaluateAll : Operation α Unit := do
  for derivative in (← model).liveRefs .derivative do
    let _ ← evaluate derivative

end Discretization.Evaluation
