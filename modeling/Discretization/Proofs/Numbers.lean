import Discretization.Proofs.Checks
import Discretization.Tensor
import Mathlib.Algebra.Order.Ring.Rat
import Mathlib.Algebra.Ring.Rat
import Mathlib.Algebra.Order.Ring.Defs
import Mathlib.Tactic.Ring

/-!
# Laws of Numbers

The interface `Scalar` carries operations and no laws. Three classes add the laws that proofs rest
on.

* `LawfulScalar`: comparison orders the defined numbers, an undefined number compares with nothing,
  and rounding to significant digits keeps what is rounded already. Doubles keep these laws.
* `ExactScalar`: besides, the arithmetic is that of an ordered commutative ring, so that sums may be
  rearranged. Doubles round their sums and are no instance; the rationals are.
* `StrictScalar`: arithmetic with a number that is not finite gives no finite number, as it is with
  doubles.
-/

namespace Discretization

/-- The number equals itself, as every number does but an undefined one. -/
def Scalar.Defined {α : Type} [Scalar α] (x : α) : Prop :=
  (x == x) = true

/-- Numbers whose comparisons order the defined ones, and whose rounding can be repeated. Numbers
may be equal in two forms, as a zero with either sign is. -/
class LawfulScalar (α : Type) [Scalar α] : Prop where
  /-- Equality is symmetric. -/
  beq_symm {x y : α} : (x == y) = true → (y == x) = true
  /-- Equality is transitive. -/
  beq_trans {x y z : α} : (x == y) = true → (y == z) = true → (x == z) = true
  /-- The order is transitive. -/
  lt_trans {x y z : α} : x < y → y < z → x < z
  /-- Equal numbers are below the same numbers. -/
  lt_of_beq_of_lt {x y z : α} : (x == y) = true → y < z → x < z
  /-- Equal numbers are above the same numbers. -/
  lt_of_lt_of_beq {x y z : α} : x < y → (y == z) = true → x < z
  /-- A number is not below an equal one. -/
  not_lt_of_beq {x y : α} : (x == y) = true → ¬ x < y
  /-- Defined numbers can be compared. -/
  lt_or_beq_or_lt {x y : α} : Scalar.Defined x → Scalar.Defined y → x < y ∨ (x == y) = true ∨ y < x
  /-- A number below another one is defined. -/
  defined_of_lt {x y : α} : x < y → Scalar.Defined x
  /-- A number above another one is defined. -/
  defined_of_gt {x y : α} : x < y → Scalar.Defined y
  /-- At most means below or equal. -/
  le_iff {x y : α} : x ≤ y ↔ x < y ∨ (x == y) = true
  /-- Rounding gives defined numbers. -/
  defined_roundSignificant {x : α} (digits : Nat) :
    Scalar.Defined x → Scalar.Defined (Scalar.roundSignificant digits x)
  /-- A rounded number is not changed by rounding it again. -/
  roundSignificant_idem {digits : Nat} (x : α) : 0 < digits →
    Scalar.roundSignificant digits (Scalar.roundSignificant digits x) =
      Scalar.roundSignificant digits x

/-- Numbers that are computed with exactly, in an ordered commutative ring. -/
class ExactScalar (α : Type) [Scalar α] : Prop extends LawfulScalar α where
  /-- Equality is that of the logic. -/
  beq_iff {x y : α} : (x == y) = true ↔ x = y
  add_assoc (x y z : α) : x + y + z = x + (y + z)
  add_comm (x y : α) : x + y = y + x
  zero_add (x : α) : 0 + x = x
  neg_add_cancel (x : α) : -x + x = 0
  sub_eq_add_neg (x y : α) : x - y = x + -y
  mul_assoc (x y z : α) : x * y * z = x * (y * z)
  mul_comm (x y : α) : x * y = y * x
  one_mul (x : α) : 1 * x = x
  mul_add (x y z : α) : x * (y + z) = x * y + x * z
  /-- The order is translation invariant. -/
  add_le_add_right {x y : α} (z : α) : x ≤ y → x + z ≤ y + z

/-- Numbers that are not finite spread: a sum, a difference or a product with one of them is not
finite either. -/
class StrictScalar (α : Type) [Scalar α] : Prop where
  /-- A finite sum is one of finite numbers. -/
  finite_of_add {x y : α} : Scalar.isFinite (x + y) = true →
    Scalar.isFinite x = true ∧ Scalar.isFinite y = true
  /-- A finite difference is one of finite numbers. -/
  finite_of_sub {x y : α} : Scalar.isFinite (x - y) = true →
    Scalar.isFinite x = true ∧ Scalar.isFinite y = true
  /-- A finite product is one of finite numbers. -/
  finite_of_mul {x y : α} : Scalar.isFinite (x * y) = true →
    Scalar.isFinite x = true ∧ Scalar.isFinite y = true

namespace Scalar

variable {α : Type} [Scalar α] [LawfulScalar α]

theorem Defined.left {x y : α} (h : (x == y) = true) : Defined x :=
  LawfulScalar.beq_trans h (LawfulScalar.beq_symm h)

theorem Defined.right {x y : α} (h : (x == y) = true) : Defined y :=
  Defined.left (LawfulScalar.beq_symm h)

/-- An undefined number equals nothing. -/
theorem beq_eq_false_of_not_defined {x : α} (y : α) (h : ¬ Defined x) : (y == x) = false := by
  rw [Bool.eq_false_iff]
  exact fun e => h (Defined.right e)

/-- A number between two bounds is defined. -/
theorem defined_of_between {lower upper x : α} (h : between lower upper x = true) :
    Defined x := by
  simp only [between, Bool.and_eq_true, decide_eq_true_eq] at h
  rcases LawfulScalar.le_iff.1 h.1 with hlt | heq
  · exact LawfulScalar.defined_of_gt hlt
  · exact Defined.right heq

theorem not_lt_self (x : α) : ¬ x < x := fun h =>
  LawfulScalar.not_lt_of_beq (LawfulScalar.defined_of_lt h) h

theorem not_beq_of_lt {x y : α} (h : x < y) : (x == y) = false := by
  rw [Bool.eq_false_iff]
  exact fun e => LawfulScalar.not_lt_of_beq e h

end Scalar

section Rounding

variable {α : Type} [Scalar α] [LawfulScalar α]

/-- Rounding again changes nothing. -/
theorem roundTo_idem {digits : Int} {x y : α} (h : roundTo digits x = .ok y) :
    roundTo digits y = .ok y := by
  unfold roundTo at h
  -- zero and numbers that are not finite pass as they are
  split at h
  · rename_i hpass
    cases h
    rw [roundTo, if_pos hpass]
    rfl
  · split at h
    · cases h
    · rename_i hdigits
      cases h
      rw [roundTo]
      split
      · rfl
      · rw [LawfulScalar.roundSignificant_idem x (by omega)]
        rfl

theorem defined_of_roundTo {digits : Int} {x y : α} (h : roundTo digits x = .ok y)
    (hx : Scalar.Defined x) : Scalar.Defined y := by
  unfold roundTo at h
  split at h
  · cases h
    exact hx
  · split at h
    · cases h
    · cases h
      exact LawfulScalar.defined_roundSignificant _ hx

omit [LawfulScalar α] in
/-- A list is rounded number by number. -/
theorem roundList_eq_ok {digits : Int} {xs ys : List α} :
    roundList digits xs = .ok ys ↔
      1 ≤ digits ∧ List.Forall₂ (fun x y => roundTo digits x = .ok y) xs ys := by
  rw [roundList]
  split
  · simp only [Except.throw_ne_ok, false_iff, not_and]
    omega
  · rw [Except.mapM_eq_ok]
    exact ⟨fun h => ⟨by omega, h⟩, fun h => h.2⟩

omit [LawfulScalar α] in
theorem length_of_roundList {digits : Int} {xs ys : List α} (h : roundList digits xs = .ok ys) :
    ys.length = xs.length :=
  (roundList_eq_ok.1 h).2.length_eq.symm

/-- What is rounded already is rounded to itself. -/
theorem roundList_idem {digits : Int} {xs ys : List α} (h : roundList digits xs = .ok ys) :
    roundList digits ys = .ok ys := by
  obtain ⟨hd, hall⟩ := roundList_eq_ok.1 h
  refine roundList_eq_ok.2 ⟨hd, List.forall₂_same.2 fun y hy => ?_⟩
  obtain ⟨x, -, hx⟩ := exists_left_of_mem hall hy
  exact roundTo_idem hx

theorem defined_of_roundList {digits : Int} {xs ys : List α} (h : roundList digits xs = .ok ys)
    (hx : ∀ x ∈ xs, Scalar.Defined x) : ∀ y ∈ ys, Scalar.Defined y := by
  intro y hy
  obtain ⟨x, hmem, hxy⟩ := exists_left_of_mem (roundList_eq_ok.1 h).2 hy
  exact defined_of_roundTo hxy (hx x hmem)

end Rounding

namespace ExactScalar

variable {α : Type} [Scalar α] [ExactScalar α]

theorem defined (x : α) : Scalar.Defined x :=
  beq_iff.2 rfl

theorem lawfulBEq : LawfulBEq α where
  eq_of_beq := beq_iff.1
  rfl := beq_iff.2 rfl

/-- The commutative ring of exact numbers. -/
@[reducible] def commRing : CommRing α where
  add_assoc := add_assoc
  zero_add := zero_add
  add_zero x := by rw [add_comm, zero_add]
  add_comm := add_comm
  neg_add_cancel := neg_add_cancel
  sub_eq_add_neg := sub_eq_add_neg
  mul_assoc := mul_assoc
  mul_comm := mul_comm
  one_mul := one_mul
  mul_one x := by rw [mul_comm, one_mul]
  left_distrib := mul_add
  right_distrib x y z := by rw [mul_comm, mul_add, mul_comm z x, mul_comm z y]
  zero_mul x := by
    have h : 0 * x + 0 * x = 0 * x := by rw [mul_comm, ← mul_add, zero_add]
    calc
      0 * x = -(0 * x) + (0 * x) + 0 * x := by rw [neg_add_cancel, zero_add]
      _ = -(0 * x) + (0 * x + 0 * x) := add_assoc _ _ _
      _ = 0 := by rw [h, neg_add_cancel]
  mul_zero x := by
    have h : x * 0 + x * 0 = x * 0 := by rw [← mul_add, zero_add]
    calc
      x * 0 = -(x * 0) + (x * 0) + x * 0 := by rw [neg_add_cancel, zero_add]
      _ = -(x * 0) + (x * 0 + x * 0) := add_assoc _ _ _
      _ = 0 := by rw [h, neg_add_cancel]
  nsmul := nsmulRec
  zsmul := zsmulRec

end ExactScalar

section Rationals

/-- The rationals, which need no rounding. Texts show a fraction as it is. -/
instance : Scalar ℚ where
  zero := 0
  one := 1
  decidableLT := inferInstance
  decidableLE := inferInstance
  isFinite _ := true
  ofRatio num den := num / den
  roundSignificant _ x := x
  text x := toString x
  coefficientText x := toString x

instance : ExactScalar ℚ where
  beq_symm h := by rw [beq_iff_eq] at *; exact h.symm
  beq_trans h h' := by rw [beq_iff_eq] at *; exact h.trans h'
  lt_trans := lt_trans
  lt_of_beq_of_lt h h' := by rw [beq_iff_eq] at h; exact h ▸ h'
  lt_of_lt_of_beq h h' := by rw [beq_iff_eq] at h'; exact h' ▸ h
  not_lt_of_beq h := by rw [beq_iff_eq] at h; exact h ▸ lt_irrefl _
  lt_or_beq_or_lt {x y} _ _ := by rw [beq_iff_eq]; exact lt_trichotomy x y
  defined_of_lt _ := beq_self_eq_true _
  defined_of_gt _ := beq_self_eq_true _
  le_iff := by intro x y; rw [beq_iff_eq]; exact le_iff_lt_or_eq
  defined_roundSignificant _ h := h
  roundSignificant_idem _ _ := rfl
  beq_iff := beq_iff_eq
  add_assoc := add_assoc
  add_comm := add_comm
  zero_add := zero_add
  neg_add_cancel := neg_add_cancel
  sub_eq_add_neg := sub_eq_add_neg
  mul_assoc := mul_assoc
  mul_comm := mul_comm
  one_mul := one_mul
  mul_add := mul_add
  add_le_add_right z h := by gcongr

instance : StrictScalar ℚ where
  finite_of_add _ := ⟨rfl, rfl⟩
  finite_of_sub _ := ⟨rfl, rfl⟩
  finite_of_mul _ := ⟨rfl, rfl⟩

end Rationals

end Discretization
