import Discretization.Decimal.Basic
import Mathlib.Algebra.Order.Field.Power
import Mathlib.Algebra.Order.Field.Rat
import Mathlib.Data.Rat.Cast.Order
import Mathlib.Tactic.FieldSimp
import Mathlib.Tactic.Linarith
import Mathlib.Tactic.Positivity
import Mathlib.Tactic.Push
import Mathlib.Tactic.Ring

/-!
# Rounding to Decimals

What the integer arithmetic on ratios computes, read in the rationals. A ratio is rounded to the
nearest natural number, ties to even, and to the nearest decimal with a number of significant
digits. The grid of decimals is finer below a power of ten than above it, so the decimal that a
number is rounded to need not be on the grid of another number; it is no nearer to that one all the
same, since the power of ten between them is on both grids.

## Main definitions

* `NearestEven`: a natural number is the one nearest to a rational, ties to even;
* `Decimal.Rounds`: a decimal is the one that a positive rational is rounded to.

## Main results

* `Ratio.nearestEven_round`, `Decimal.rounds_nearest`: the computed roundings are those;
* `Decimal.Rounds.abs_sub_le`: no other rounded number is nearer;
* `Decimal.Rounds.mono`: rounding keeps the order.
-/

namespace Discretization

/-! ## The nearest natural number -/

/-- A natural number is the one nearest to a rational; between two it is the even one. -/
structure NearestEven (x : ℚ) (n : ℕ) : Prop where
  below : (n : ℚ) - 1 / 2 ≤ x
  above : x ≤ n + 1 / 2
  even_of_eq_below : x = (n : ℚ) - 1 / 2 → Even n
  even_of_eq_above : x = (n : ℚ) + 1 / 2 → Even n

namespace NearestEven

variable {x : ℚ} {n : ℕ}

/-- A whole number that is not above is not above the nearest one either. -/
theorem le_of_le (h : NearestEven x n) {k : ℤ} (hk : (k : ℚ) ≤ x) : k ≤ n := by
  have hlt : (k : ℚ) < n + 1 := by linarith [h.above]
  exact Int.lt_add_one_iff.1 (by exact_mod_cast hlt)

/-- A whole number that is not below is not below the nearest one either. -/
theorem ge_of_ge (h : NearestEven x n) {k : ℤ} (hk : x ≤ k) : (n : ℤ) ≤ k := by
  have hlt : (n : ℚ) < k + 1 := by linarith [h.below]
  exact Int.lt_add_one_iff.1 (by exact_mod_cast hlt)

theorem unique {m : ℕ} (h : NearestEven x n) (h' : NearestEven x m) : n = m := by
  wlog hlt : n < m generalizing n m
  · rcases (not_lt.1 hlt).lt_or_eq with hgt | heq
    · exact (this h' h hgt).symm
    · exact heq.symm
  have hle : (n : ℚ) + 1 ≤ m := by exact_mod_cast hlt
  have hbelow := h'.below
  have habove := h.above
  -- both are half away, so they are neighbours and both even
  obtain rfl : m = n + 1 := by
    have hge : (m : ℚ) ≤ n + 1 := by linarith
    exact le_antisymm (by exact_mod_cast hge) hlt
  have hx : x = (n : ℚ) + 1 / 2 := by linarith
  have heven := h'.even_of_eq_below (by push_cast; linarith)
  exact absurd heven (Nat.not_even_iff_odd.2 (h.even_of_eq_above hx).add_one)

/-- No whole number is nearer. -/
theorem abs_sub_le (h : NearestEven x n) (k : ℤ) : |x - n| ≤ |x - k| := by
  have hhalf : |x - n| ≤ 1 / 2 := abs_le.2 ⟨by linarith [h.below], by linarith [h.above]⟩
  rcases lt_trichotomy k n with hlt | rfl | hgt
  · have hk : (k : ℚ) ≤ n - 1 := by exact_mod_cast Int.le_sub_one_of_lt hlt
    exact hhalf.trans (le_abs.2 (.inl (by linarith [h.below])))
  · simp
  · have hk : (n : ℚ) + 1 ≤ k := by exact_mod_cast Int.add_one_le_of_lt hgt
    exact hhalf.trans (le_abs.2 (.inr (by linarith [h.above])))

end NearestEven

theorem nearestEven_roundHalfEven (num : ℕ) {den : ℕ} (hden : 0 < den) :
    NearestEven ((num : ℚ) / den) (roundHalfEven num den) := by
  have hd : (0 : ℚ) < den := by exact_mod_cast hden
  -- the quotient is the whole part, and the rest decides, on a midpoint by the parity of the
  -- quotient
  have hsplit : (num : ℚ) / den = (num / den : ℕ) + (num % den : ℕ) / (den : ℚ) := by
    rw [div_eq_iff hd.ne', add_mul, div_mul_cancel₀ _ hd.ne']
    exact_mod_cast (Nat.div_add_mod' num den).symm
  have hrest : ((num % den : ℕ) : ℚ) / den < 1 := by
    rw [div_lt_one hd]
    exact_mod_cast Nat.mod_lt num hden
  have hnonneg : (0 : ℚ) ≤ (num % den : ℕ) / (den : ℚ) := by positivity
  have hgt : den < 2 * (num % den) ↔ 1 / 2 < ((num % den : ℕ) : ℚ) / den := by
    rw [lt_div_iff₀ hd, one_div_mul_eq_div, div_lt_iff₀' two_pos]
    exact_mod_cast Iff.rfl
  have heq : 2 * (num % den) = den ↔ ((num % den : ℕ) : ℚ) / den = 1 / 2 := by
    rw [div_eq_iff hd.ne', one_div_mul_eq_div, eq_div_iff two_ne_zero, mul_comm]
    exact_mod_cast Iff.rfl
  rw [roundHalfEven, hsplit]
  simp only [Bool.or_eq_true, Bool.and_eq_true, decide_eq_true_eq, beq_iff_eq, hgt, heq]
  generalize ((num % den : ℕ) : ℚ) / den = t at *
  generalize num / den = quotient at *
  split
  · rename_i hup
    have hcast : ((quotient + 1 : ℕ) : ℚ) = quotient + 1 := Nat.cast_succ quotient
    refine ⟨?_, by linarith, fun ht => ?_, fun ht => by linarith⟩
    · rcases hup with h | ⟨h, -⟩ <;> linarith
    · rcases hup with h | ⟨-, hodd⟩
      · linarith
      · exact (Nat.odd_iff.2 hodd).add_one
  · rename_i hdown
    obtain ⟨hle, hodd⟩ := not_or.1 hdown
    refine ⟨by linarith, by linarith, fun ht => by linarith, fun ht => ?_⟩
    exact Nat.even_iff.2 (Nat.mod_two_ne_one.1 fun h => hodd ⟨by linarith, h⟩)

/-! ## Ratios -/

namespace Ratio

/-- The rational that a ratio stands for. -/
def value (r : Ratio) : ℚ :=
  r.num / r.den

theorem num_pos_of_value_pos {r : Ratio} (h : 0 < r.value) : 0 < r.num := by
  refine Nat.pos_of_ne_zero fun hnum => h.ne' ?_
  rw [value, hnum, Nat.cast_zero, zero_div]

/-- Scaling keeps denominators positive. -/
theorem den_scaleDown_pos {r : Ratio} (hden : 0 < r.den) {base : ℕ} (hbase : 0 < base) (e : ℤ) :
    0 < (r.scaleDown base e).den := by
  unfold scaleDown
  split
  · exact Nat.mul_pos hden (Nat.pow_pos hbase)
  · exact hden

theorem value_scaleDown (r : Ratio) {base : ℕ} (hbase : 0 < base) (e : ℤ) :
    (r.scaleDown base e).value = r.value / (base : ℚ) ^ e := by
  have hb : (base : ℚ) ≠ 0 := by positivity
  unfold scaleDown value
  split
  · rename_i he
    obtain ⟨k, rfl⟩ := Int.eq_ofNat_of_zero_le he
    simp [div_div]
  · rename_i he
    obtain ⟨k, rfl⟩ : ∃ k : ℕ, e = -k := ⟨(-e).toNat, by omega⟩
    simp [mul_div_right_comm]

theorem value_scaleUp (r : Ratio) {base : ℕ} (hbase : 0 < base) (e : ℤ) :
    (r.scaleUp base e).value = r.value * (base : ℚ) ^ e := by
  rw [scaleUp, value_scaleDown r hbase, zpow_neg, div_inv_eq_mul]

/-- A ratio is rounded to the nearest natural number. -/
theorem nearestEven_round {r : Ratio} (hden : 0 < r.den) : NearestEven r.value r.round :=
  nearestEven_roundHalfEven r.num hden

/-- The greatest natural number not above is below another one where the ratio is. -/
theorem floor_lt_iff {r : Ratio} (hden : 0 < r.den) {n : ℕ} : r.floor < n ↔ r.value < n := by
  have hd : (0 : ℚ) < r.den := by exact_mod_cast hden
  rw [floor, value, Nat.div_lt_iff_lt_mul hden, div_lt_iff₀ hd]
  exact_mod_cast Iff.rfl

end Ratio

/-! ## Leading digits -/

/-- A positive number with so many digits lies between two powers of ten. -/
theorem decimalLength_spec {n : ℕ} (hn : 0 < n) :
    ∃ k, decimalLength n = k + 1 ∧ 10 ^ k ≤ n ∧ n < 10 ^ (k + 1) := by
  induction n using decimalLength.induct with
  | case1 n hlt =>
    exact ⟨0, by rw [decimalLength, if_pos hlt], hn, by simpa using hlt⟩
  | case2 n hge ih =>
    obtain ⟨k, hk, hlow, hhigh⟩ := ih (by omega)
    refine ⟨k + 1, by rw [decimalLength, if_neg hge, hk], ?_, ?_⟩
    · rw [pow_succ]
      omega
    · rw [pow_succ]
      omega

/-- A positive ratio lies between two powers of ten. -/
theorem Ratio.decimalExponent_spec {r : Ratio} (hnum : 0 < r.num) (hden : 0 < r.den) :
    (10 : ℚ) ^ r.decimalExponent ≤ r.value ∧ r.value < (10 : ℚ) ^ (r.decimalExponent + 1) := by
  have hn : (0 : ℚ) < r.num := by exact_mod_cast hnum
  have hd : (0 : ℚ) < r.den := by exact_mod_cast hden
  unfold decimalExponent value
  split
  · rename_i hle
    obtain ⟨k, hk, hlow, hhigh⟩ := decimalLength_spec (Nat.div_pos hle hden)
    rw [hk, Nat.cast_add_one, add_sub_cancel_right, zpow_natCast, ← Nat.cast_add_one, zpow_natCast,
      le_div_iff₀ hd, div_lt_iff₀ hd]
    rw [Nat.le_div_iff_mul_le hden] at hlow
    rw [Nat.div_lt_iff_lt_mul hden] at hhigh
    exact ⟨by exact_mod_cast hlow, by exact_mod_cast hhigh⟩
  · rename_i hlt
    -- below one the digits of the inverse tell the exponent, and whether it is a power of ten
    obtain ⟨k, hk, hlow, hhigh⟩ := decimalLength_spec (Nat.div_pos (not_le.1 hlt).le hnum)
    rw [Nat.le_div_iff_mul_le hnum] at hlow
    rw [Nat.div_lt_iff_lt_mul hnum] at hhigh
    have hlow' : (10 : ℚ) ^ k * r.num ≤ r.den := by exact_mod_cast hlow
    have hhigh' : (r.den : ℚ) < 10 ^ (k + 1) * r.num := by exact_mod_cast hhigh
    rw [hk]
    dsimp only
    rw [Nat.add_sub_cancel]
    split
    · rename_i hpow
      have hpow' : (r.den : ℚ) ≤ r.num * 10 ^ k := by exact_mod_cast hpow
      constructor
      · rw [zpow_neg, zpow_natCast, inv_le_comm₀ (by positivity) (by positivity), inv_div,
          div_le_iff₀ hn]
        linarith
      · rw [zpow_add₀ (by norm_num), zpow_neg, zpow_natCast, zpow_one, div_lt_iff₀ hd,
          inv_mul_eq_div, div_mul_eq_mul_div, lt_div_iff₀ (by positivity)]
        linarith
    · rename_i hpow
      have hpow' : (r.num : ℚ) * 10 ^ k < r.den := by exact_mod_cast not_le.1 hpow
      constructor
      · rw [← Nat.cast_add_one, zpow_neg, zpow_natCast, le_div_iff₀ hd,
          inv_mul_le_iff₀ (by positivity)]
        linarith
      · rw [neg_add_rev, add_right_comm, neg_add_cancel, zero_add, zpow_neg, zpow_natCast,
          div_lt_iff₀ hd, inv_mul_eq_div, lt_div_iff₀ (by positivity)]
        linarith

/-! ## The nearest decimal -/

namespace Decimal

/-- The rational that a decimal stands for. -/
def value (d : Decimal) : ℚ :=
  d.digits * 10 ^ d.exponent

@[simp]
theorem value_toRatio (d : Decimal) : d.toRatio.value = d.value := by
  rw [toRatio, Ratio.value_scaleUp _ (by decide)]
  simp [Ratio.value, value]

theorem den_toRatio_pos (d : Decimal) : 0 < d.toRatio.den :=
  Ratio.den_scaleDown_pos Nat.one_pos (by decide) _

/-- A decimal is the one with a number of significant digits that a positive rational is rounded to.
Its last digit counts the power of ten that the rational has that many digits down to. -/
structure Rounds (count : ℕ) (x : ℚ) (d : Decimal) : Prop where
  lower : (10 : ℚ) ^ (d.exponent + count - 1) ≤ x
  upper : x < (10 : ℚ) ^ (d.exponent + count)
  nearest : NearestEven (x / 10 ^ d.exponent) d.digits

theorem rounds_nearest {r : Ratio} (hnum : 0 < r.num) (hden : 0 < r.den) (count : ℕ) :
    Rounds count r.value (nearest r count) := by
  -- the exponent of the leading digit fixes what the last one counts
  obtain ⟨hlow, hhigh⟩ := Ratio.decimalExponent_spec hnum hden
  refine ⟨?_, ?_, ?_⟩
  · rwa [nearest, sub_add_eq_add_sub, sub_add_cancel, add_sub_cancel_right]
  · rwa [nearest, sub_add_eq_add_sub, sub_add_cancel]
  · rw [← Nat.cast_ofNat (R := ℚ), ← Ratio.value_scaleDown r (by decide)]
    exact Ratio.nearestEven_round (Ratio.den_scaleDown_pos hden (by decide) _)

namespace Rounds

variable {count : ℕ} {x y : ℚ} {c d : Decimal}

theorem pos (h : Rounds count x d) : 0 < x :=
  (zpow_pos (by norm_num) _).trans_le h.lower

/-- No multiple of what the last digit counts is nearer. -/
theorem abs_sub_le_mul (h : Rounds count x d) (k : ℤ) :
    |x - d.value| ≤ |x - k * 10 ^ d.exponent| := by
  have hp : (0 : ℚ) < 10 ^ d.exponent := zpow_pos (by norm_num) _
  have hscale : ∀ y : ℚ,
      |x - y * 10 ^ d.exponent| = |x / 10 ^ d.exponent - y| * 10 ^ d.exponent := by
    intro y
    rw [← abs_of_pos hp, ← abs_mul, abs_of_pos hp, sub_mul, div_mul_cancel₀ _ hp.ne']
  rw [value, hscale, hscale]
  exact mul_le_mul_of_nonneg_right (h.nearest.abs_sub_le k) hp.le

/-- The digits are at most as many as asked for, but for the carry into a new leading digit. -/
theorem value_le (h : Rounds count x d) : d.value ≤ 10 ^ (d.exponent + count) := by
  have hp : (0 : ℚ) < 10 ^ d.exponent := zpow_pos (by norm_num) _
  -- the scaled number is below a power of ten, and that is a whole number to round to
  have hdigits : (d.digits : ℤ) ≤ 10 ^ count := h.nearest.ge_of_ge (by
    rw [div_le_iff₀ hp]
    refine h.upper.le.trans_eq ?_
    push_cast
    rw [zpow_add₀ (by norm_num), zpow_natCast, mul_comm])
  rw [value, zpow_add₀ (by norm_num), zpow_natCast, mul_comm]
  exact mul_le_mul_of_nonneg_left (by exact_mod_cast hdigits) hp.le

/-- What the leading digit counts is a multiple of what the last one does. -/
theorem leading_eq (e : ℤ) (k : ℕ) : (10 : ℚ) ^ (e + (k + 1 : ℕ) - 1) = 10 ^ k * 10 ^ e := by
  rw [Nat.cast_add_one, ← add_assoc, add_sub_cancel_right, add_comm, zpow_add₀ (by norm_num),
    zpow_natCast]

/-- The leading digit is not zero. -/
theorem le_value (h : Rounds count x d) (hcount : 1 ≤ count) :
    (10 : ℚ) ^ (d.exponent + count - 1) ≤ d.value := by
  obtain ⟨k, rfl⟩ : ∃ k, count = k + 1 := ⟨count - 1, by omega⟩
  have hp : (0 : ℚ) < 10 ^ d.exponent := zpow_pos (by norm_num) _
  have hdigits : (10 ^ k : ℤ) ≤ d.digits := h.nearest.le_of_le (by
    rw [le_div_iff₀ hp]
    have hlower := h.lower
    rw [leading_eq] at hlower
    exact_mod_cast hlower)
  rw [leading_eq, value]
  exact mul_le_mul_of_nonneg_right (by exact_mod_cast hdigits) hp.le

/-- No other rounded number is nearer. -/
theorem abs_sub_le (h : Rounds count x d) (hcount : 1 ≤ count) (hc : Rounds count y c) :
    |x - d.value| ≤ |x - c.value| := by
  rcases le_or_gt d.exponent c.exponent with hle | hlt
  · -- the coarser grid is part of the finer one
    obtain ⟨k, hk⟩ := Int.eq_ofNat_of_zero_le (sub_nonneg.2 hle)
    have hgrid : c.value = ((c.digits * 10 ^ k : ℕ) : ℤ) * 10 ^ d.exponent := by
      rw [value, show c.exponent = k + d.exponent by omega, zpow_add₀ (by norm_num)]
      push_cast
      rw [zpow_natCast, mul_assoc]
    rw [hgrid]
    exact h.abs_sub_le_mul _
  · -- a power of ten on the grid lies between
    obtain ⟨k, rfl⟩ : ∃ k, count = k + 1 := ⟨count - 1, by omega⟩
    have hgrid : (10 : ℚ) ^ (d.exponent + (k + 1 : ℕ) - 1) =
        ((10 ^ k : ℕ) : ℤ) * 10 ^ d.exponent := by
      rw [leading_eq]
      push_cast
      rfl
    have hbetween : c.value ≤ (10 : ℚ) ^ (d.exponent + (k + 1 : ℕ) - 1) :=
      hc.value_le.trans (zpow_le_zpow_right₀ (by norm_num) (by omega))
    calc
      |x - d.value| ≤ |x - (10 : ℚ) ^ (d.exponent + (k + 1 : ℕ) - 1)| := by
        rw [hgrid]
        exact h.abs_sub_le_mul _
      _ = x - (10 : ℚ) ^ (d.exponent + (k + 1 : ℕ) - 1) := abs_of_nonneg (sub_nonneg.2 h.lower)
      _ ≤ x - c.value := sub_le_sub_left hbetween x
      _ ≤ |x - c.value| := le_abs_self _

/-- The last digits of greater numbers count no smaller powers of ten. -/
theorem exponent_le (h : Rounds count x d) (hc : Rounds count y c) (hxy : x ≤ y) :
    d.exponent ≤ c.exponent := by
  have hlt := (zpow_lt_zpow_iff_right₀ (by norm_num)).1 ((h.lower.trans hxy).trans_lt hc.upper)
  omega

theorem unique (h : Rounds count x d) (hc : Rounds count x c) : d = c := by
  have hexponent := (h.exponent_le hc le_rfl).antisymm (hc.exponent_le h le_rfl)
  have hdigits : d.digits = c.digits := h.nearest.unique (hexponent ▸ hc.nearest)
  cases d
  cases c
  cases hexponent
  cases hdigits
  rfl

/-- Rounding keeps the order. -/
theorem mono (h : Rounds count x d) (hc : Rounds count y c) (hcount : 1 ≤ count) (hxy : x ≤ y) :
    d.value ≤ c.value := by
  rcases hxy.lt_or_eq with hxy | rfl
  swap
  · rw [h.unique hc]
  by_contra hlt
  -- otherwise each is at most as far from its own number as from the other one
  have hx := abs_le.1 (h.abs_sub_le hcount hc)
  have hy := abs_le.1 (hc.abs_sub_le hcount h)
  -- both inequalities say how the two decimals lie around the midpoint of the numbers
  rcases le_total x c.value with hxc | hxc
  · rw [abs_of_nonpos (by linarith)] at hx
    linarith
  · rcases le_total d.value y with hdy | hdy
    · rw [abs_of_nonneg (by linarith)] at hy
      linarith
    · rw [abs_of_nonneg (by linarith)] at hx
      rw [abs_of_nonpos (by linarith)] at hy
      linarith

end Rounds

end Decimal

end Discretization
