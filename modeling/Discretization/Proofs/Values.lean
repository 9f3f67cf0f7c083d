import Discretization.Proofs.Expressions
import Mathlib.Data.List.Induction

/-!
# Values of Finite Expressions

Over exact numbers the value of an expression does not depend on how it was put together: a variable
that is added again counts with the sum of its coefficients, a multiple of an expression adds the
multiple of its value, and a constant may be moved to the other side of a constraint.

## Main results

* `Expression.eval_add`: the value of an expression plus a multiple of another one;
* `Expression.eval_weightedSum`: the value of a sum of coefficients times expressions;
* `Sense.holds_sub`: a number is moved to the other side of a relation.
-/

namespace Discretization

variable {α : Type} [Scalar α] [ExactScalar α]

/-! ## Sums -/

/-- A sum that starts with a number adds that number. -/
theorem Scalar.foldl_add (a : α) (xs : List α) : xs.foldl (· + ·) a = a + Scalar.sum xs := by
  let _ := ExactScalar.commRing (α := α)
  rw [Scalar.sum]
  induction xs generalizing a with
  | nil => exact (add_zero a).symm
  | cons y ys ih =>
    rw [List.foldl_cons, List.foldl_cons, ih (a + y), ih (0 + y)]
    ring

/-- A sum may be taken from either end. -/
theorem Scalar.sum_cons (x : α) (xs : List α) : Scalar.sum (x :: xs) = x + Scalar.sum xs := by
  let _ := ExactScalar.commRing (α := α)
  rw [Scalar.sum, List.foldl_cons, foldl_add, zero_add]

theorem Scalar.sum_append (xs ys : List α) :
    Scalar.sum (xs ++ ys) = Scalar.sum xs + Scalar.sum ys := by
  let _ := ExactScalar.commRing (α := α)
  induction xs with
  | nil => exact (zero_add (Scalar.sum ys)).symm
  | cons x xs ih =>
    rw [List.cons_append, Scalar.sum_cons, Scalar.sum_cons, ih]
    ring

/-! ## Expressions -/

namespace Expression

variable (σ : Int → α)

theorem evalTerms_cons (i : Int) (c : α) (rest : List (Int × α)) :
    evalTerms σ ((i, c) :: rest) = c * σ i + evalTerms σ rest := by
  rw [evalTerms, List.map_cons, Scalar.sum_cons]
  rfl

/-- A coefficient added to that of a variable counts once, wherever the variable stands. -/
theorem evalTerms_addToTerms (terms : List (Int × α)) (i : Int) (c : α) :
    evalTerms σ (addToTerms terms i c) = evalTerms σ terms + c * σ i := by
  let _ := ExactScalar.commRing (α := α)
  -- the coefficient goes to the first term of the variable, or to the end
  induction terms with
  | nil =>
    rw [addToTerms, evalTerms_cons]
    ring
  | cons term rest ih =>
    obtain ⟨j, d⟩ := term
    rw [addToTerms]
    split
    · rename_i hj
      subst hj
      rw [evalTerms_cons, evalTerms_cons]
      ring
    · rw [evalTerms_cons, evalTerms_cons, ih]
      ring

/-- The value of an expression plus a multiple of another one. -/
theorem eval_add (e other : Expression α) (scale : α) :
    (e.add other scale).eval σ = e.eval σ + scale * other.eval σ := by
  let _ := ExactScalar.commRing (α := α)
  -- the terms are added one by one, and the constant waits until the end
  have hfold : ∀ (terms : List (Int × α)) (e : Expression α),
      evalTerms σ (terms.foldl (fun e term => e.addTerm term.1 (scale * term.2)) e).terms =
        evalTerms σ e.terms + scale * evalTerms σ terms ∧
      (terms.foldl (fun e term => e.addTerm term.1 (scale * term.2)) e).constant =
        e.constant := by
    intro terms
    induction terms with
    | nil =>
      intro e
      refine ⟨?_, rfl⟩
      change evalTerms σ e.terms = evalTerms σ e.terms + scale * 0
      ring
    | cons term rest ih =>
      intro e
      obtain ⟨i, c⟩ := term
      obtain ⟨hterms, hconstant⟩ := ih (e.addTerm i (scale * c))
      refine ⟨?_, hconstant⟩
      rw [List.foldl_cons, hterms, addTerm, evalTerms_addToTerms, evalTerms_cons]
      ring
  obtain ⟨hterms, hconstant⟩ := hfold other.terms e
  rw [eval, add, hterms, hconstant, eval, eval]
  ring

theorem eval_zero : (zero : Expression α).eval σ = 0 := by
  let _ := ExactScalar.commRing (α := α)
  exact add_zero 0

/-- The value of a sum of coefficients times expressions. -/
theorem eval_weightedSum (rows : List (α × Expression α)) :
    (weightedSum rows).eval σ = Scalar.sum (rows.map fun row => row.1 * row.2.eval σ) := by
  let _ := ExactScalar.commRing (α := α)
  induction rows using List.reverseRecOn with
  | nil => exact eval_zero σ
  | append_singleton rows row ih =>
    rw [weightedSum_append, eval_add, ih, List.map_append, Scalar.sum_append]
    change _ = _ + (0 + row.1 * row.2.eval σ)
    rw [zero_add]

theorem eval_const (x : α) : (const x).eval σ = x := by
  let _ := ExactScalar.commRing (α := α)
  exact zero_add x

theorem eval_ofVariable (i : Int) : (ofVariable i : Expression α).eval σ = σ i := by
  let _ := ExactScalar.commRing (α := α)
  rw [ofVariable, eval, evalTerms_cons]
  change 1 * σ i + 0 + 0 = σ i
  ring

/-- A sum of multiples of variables has no constant. -/
theorem constant_weightedSum_ofVariable (rows : List (α × Int)) :
    (weightedSum (rows.map fun row => (row.1, ofVariable row.2))).constant = 0 := by
  let _ := ExactScalar.commRing (α := α)
  induction rows using List.reverseRecOn with
  | nil => rfl
  | append_singleton rows row ih =>
    rw [List.map_append, List.map_singleton, weightedSum_append]
    change (weightedSum (rows.map fun row => (row.1, ofVariable row.2))).constant + row.1 * 0 = 0
    rw [ih, mul_zero, add_zero]

/-- The constant of an expression counts beside the terms. -/
theorem eval_terms_add_constant (e : Expression α) :
    eval σ { e with constant := 0 } + e.constant = e.eval σ := by
  let _ := ExactScalar.commRing (α := α)
  change evalTerms σ e.terms + 0 + e.constant = evalTerms σ e.terms + e.constant
  rw [add_zero]

end Expression

/-- The sum of the terms of an equation, where objects have values at supports. -/
def Equation.residual {α : Type} [Scalar α] (value : Ref → α → α) (e : Equation α) : α :=
  Scalar.sum (e.terms.map fun term => term.coefficient * value term.ref term.value)

/-! ## Relations -/

/-- A number may be moved to the other side of a relation. -/
theorem Sense.holds_sub (sense : Sense) (x y k : α) :
    sense.holds x (y - k) ↔ sense.holds (x + k) y := by
  let _ := ExactScalar.commRing (α := α)
  have hmove : ∀ a b : α, a ≤ b - k ↔ a + k ≤ b := fun a b =>
    ⟨fun h => by simpa using ExactScalar.add_le_add_right k h,
      fun h => by simpa [sub_eq_add_neg] using ExactScalar.add_le_add_right (-k) h⟩
  have hmove' : ∀ a b : α, b - k ≤ a ↔ b ≤ a + k := fun a b =>
    ⟨fun h => by simpa using ExactScalar.add_le_add_right k h,
      fun h => by simpa [sub_eq_add_neg] using ExactScalar.add_le_add_right (-k) h⟩
  cases sense with
  | le => exact hmove x y
  | ge => exact hmove' x y
  | eq => exact eq_sub_iff_add_eq
  | other text => exact Iff.rfl

end Discretization
