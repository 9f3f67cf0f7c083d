import Discretization.Scalar

/-!
# Gauss–Lobatto Nodes

The inner nodes of the rule with `n` nodes are the roots of the derivative `P'` of the Legendre
polynomial of degree `n - 1`. These derivatives are orthogonal polynomials, so the roots of each
separate those of the next: between two neighbouring roots, the ends `-1` and `1` included, lies
exactly one root of the next. Bisection in binary fixed point therefore finds all of them, degree by
degree, and every sign is decided by exact integer arithmetic.
-/

namespace Discretization.Lobatto

/-- The number of binary places of a root. -/
def places : Nat := 64

/-- The number one in fixed point. -/
def unit : Int := Nat.pow 2 places

/-- The values at `x / unit` of the derivatives of the Legendre polynomials of degrees `degree + 1`
and `degree`, both scaled by positive factors. With `Q k` for the derivative at degree `k + 1`, the
recurrence is `k * Q k = (2 * k + 1) * x * Q (k - 1) - (k + 1) * Q (k - 2)`, and the values are
`k! * unit ^ k * Q k`. -/
def values (x : Int) : (degree : Nat) → Int × Int
  | 0 => (1, 0)
  | k + 1 =>
    let (last, previous) := values x k
    ((2 * k + 3) * x * last - (k + 2) * k * (unit * unit) * previous, last)

/-- The scaled value at `x / unit` of the derivative of the Legendre polynomial of degree
`degree + 1`. -/
def value (degree : Nat) (x : Int) : Int :=
  (values x degree).1

/-- Halves an interval at whose ends `f` has different signs, the sign at `lower` being `sign`,
`steps` times or until a root is met. -/
def bisect (f : Int → Int) (sign : Int) : (steps : Nat) → (lower upper : Int) → Int
  | 0, lower, _ => lower
  | steps + 1, lower, upper =>
    let middle := (lower + upper) / 2
    let s := (f middle).sign
    if s = 0 then middle
    else if s = sign then bisect f sign steps middle upper
    else bisect f sign steps lower middle

/-- The roots of the derivative of the Legendre polynomial of degree `degree + 1`, in fixed point
and in increasing order. -/
def roots : (degree : Nat) → List Int
  | 0 => []
  | degree + 1 =>
    let ends := -unit :: roots degree ++ [unit]
    (ends.zip ends.tail).map fun (lower, upper) =>
      let f := value (degree + 1)
      bisect f (f lower).sign (places + 2) lower upper

variable {α : Type} [Scalar α]

/-- The inner nodes of the rule with `n` nodes. -/
def innerNodes (n : Nat) : List α :=
  (roots (n - 2)).map fun root => Scalar.ofRatio root unit.toNat

/-- All nodes of the rule with `n` nodes, from `-1` to `1`. -/
def nodes (n : Nat) : List α :=
  -1 :: innerNodes n ++ [1]

end Discretization.Lobatto
