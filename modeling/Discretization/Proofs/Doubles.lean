import Discretization.Decimal.Binary64
import Discretization.Proofs.Rounding

/-!
# The Grid of Doubles

The magnitudes of doubles, read as natural numbers, count the points of a grid in the rationals
whose gaps double at every power of two. The double nearest to a rational is between the midpoints
to its neighbours on that grid, and on a midpoint its magnitude is even.

Rounding a double to significant digits goes to the nearest decimal and back to the nearest double.
Doing it twice gives the same as doing it once, for every number of digits, also where decimals are
as close to each other as doubles are. The first double lies between the midpoints around it
together with its decimal, and its own decimal is not farther away than that. So it could leave them
only where the midpoint on the other side is nearer, that is at a power of two, from above; there
both decimals would have an even last digit and differ by one in it.

## Main definitions

* `Binary64.value`: the rational that a magnitude stands for;
* `Binary64.Reads`: a magnitude is the one nearest to a rational, ties to even.

## Main results

* `Binary64.reads_magnitudeOf`: the computed magnitude is the nearest one;
* `Binary64.reads_again`: rounding to significant digits again gives the same magnitude.
-/

namespace Discretization.Binary64

/-! ## Points of the grid -/

/-- The rational that a magnitude stands for; magnitudes beyond the greatest double go on in the
same way. -/
def value (n : ℕ) : ℚ :=
  if n / hiddenBit = 0 then (n % hiddenBit : ℕ) * 2 ^ (-1074 : ℤ)
  else (hiddenBit + n % hiddenBit : ℕ) * 2 ^ ((n / hiddenBit : ℕ) - 1075 : ℤ)

/-- The distance from the point of a magnitude to the next one. -/
def gap (n : ℕ) : ℚ :=
  2 ^ ((max (n / hiddenBit) 1 : ℕ) - 1075 : ℤ)

/-- The midpoint between a magnitude and the next one. -/
def midpoint (n : ℕ) : ℚ :=
  value n + gap n / 2

theorem gap_pos (n : ℕ) : 0 < gap n :=
  zpow_pos (by norm_num) _

theorem gap_mono {m n : ℕ} (h : m ≤ n) : gap m ≤ gap n := by
  have hdiv : m / hiddenBit ≤ n / hiddenBit := Nat.div_le_div_right h
  exact zpow_le_zpow_right₀ (by norm_num) (by omega)

/-- A mantissa counts steps of the grid, from a power of two on or from zero. -/
theorem value_add {k m : ℕ} (hm : m ≤ 2 * hiddenBit) (h : k = 0 ∨ hiddenBit ≤ m) :
    value (k * hiddenBit + m) = m * 2 ^ (k - 1074 : ℤ) := by
  have hpos : 0 < hiddenBit := by decide
  -- below the hidden bit the exponent field is zero, which only the first block has
  rcases lt_or_ge m hiddenBit with hlt | hge
  · obtain rfl : k = 0 := h.resolve_right (by omega)
    rw [value, Nat.zero_mul, Nat.zero_add, Nat.div_eq_of_lt hlt, if_pos rfl, Nat.mod_eq_of_lt hlt]
    simp
  · obtain ⟨f, rfl⟩ := Nat.exists_eq_add_of_le hge
    have hshift : k * hiddenBit + (hiddenBit + f) = f + (k + 1) * hiddenBit := by ring
    rcases lt_or_ge f hiddenBit with hlt | hge
    · rw [value, hshift, Nat.add_mul_div_right _ _ hpos, Nat.div_eq_of_lt hlt,
        Nat.add_mul_mod_self_right, Nat.mod_eq_of_lt hlt, if_neg (by omega)]
      congr 2
      push_cast
      ring
    · -- the mantissa has carried into the next power of two
      obtain rfl : f = hiddenBit := by omega
      rw [value, hshift, Nat.add_mul_div_right _ _ hpos, Nat.div_self hpos,
        Nat.add_mul_mod_self_right, Nat.mod_self, if_neg (by omega), Nat.add_zero,
        show ((1 + (k + 1) : ℕ) : ℤ) - 1075 = (k - 1074 : ℤ) + 1 by push_cast; ring,
        zpow_add_one₀ two_ne_zero]
      push_cast
      ring

theorem gap_add {k m : ℕ} (hm : m < 2 * hiddenBit) (h : k = 0 ∨ hiddenBit ≤ m) :
    gap (k * hiddenBit + m) = 2 ^ (k - 1074 : ℤ) := by
  have hpos : 0 < hiddenBit := by decide
  have hdiv : max ((k * hiddenBit + m) / hiddenBit) 1 = k + 1 := by
    rw [Nat.add_comm, Nat.add_mul_div_right _ _ hpos]
    rcases lt_or_ge m hiddenBit with hlt | hge
    · rw [Nat.div_eq_of_lt hlt]
      omega
    · rw [Nat.div_eq_of_lt_le (by omega : 1 * hiddenBit ≤ m) (by omega)]
      omega
  rw [gap, hdiv]
  congr 1
  push_cast
  omega

/-- Every magnitude counts steps of the grid in one way. -/
theorem exists_steps (n : ℕ) :
    ∃ k m, n = k * hiddenBit + m ∧ m < 2 * hiddenBit ∧ (k = 0 ∨ hiddenBit ≤ m) := by
  have hsplit := Nat.div_add_mod' n hiddenBit
  have hlt : n % hiddenBit < hiddenBit := Nat.mod_lt n (by decide)
  rcases hk : n / hiddenBit with _ | k
  · rw [hk] at hsplit
    exact ⟨0, n % hiddenBit, hsplit.symm, by omega, .inl rfl⟩
  · rw [hk, Nat.succ_mul] at hsplit
    exact ⟨k, hiddenBit + n % hiddenBit, by omega, by omega, .inr (by omega)⟩

theorem value_succ (n : ℕ) : value (n + 1) = value n + gap n := by
  obtain ⟨k, m, rfl, hm, hk⟩ := exists_steps n
  rw [gap_add hm hk, value_add hm.le hk, add_assoc, value_add hm (by omega)]
  push_cast
  ring

theorem value_strictMono : StrictMono value :=
  strictMono_nat_of_lt_succ fun n => by
    rw [value_succ]
    exact lt_add_of_pos_right _ (gap_pos n)

/-- The midpoint below a magnitude is half the gap before it away. -/
theorem midpoint_eq (n : ℕ) : midpoint n = value (n + 1) - gap n / 2 := by
  rw [midpoint, value_succ]
  ring

theorem midpoint_lt_value (n : ℕ) : midpoint n < value (n + 1) := by
  rw [midpoint_eq]
  linarith [gap_pos n]

theorem midpoint_strictMono : StrictMono midpoint :=
  strictMono_nat_of_lt_succ fun n => by
    have hn := gap_pos n
    have hn' := gap_pos (n + 1)
    rw [midpoint, midpoint, value_succ]
    linarith

/-! ## The nearest magnitude -/

/-- A magnitude is the one nearest to a rational; between two it is the even one. -/
structure Reads (x : ℚ) (n : ℕ) : Prop where
  below : ∀ k, n = k + 1 → midpoint k ≤ x
  above : x ≤ midpoint n
  even_of_eq_below : ∀ k, n = k + 1 → x = midpoint k → Even n
  even_of_eq_above : x = midpoint n → Even n

namespace Reads

variable {x : ℚ} {n n' : ℕ}

theorem of_succ (hbelow : value (n + 1) - gap n / 2 ≤ x)
    (habove : x ≤ value (n + 1) + gap (n + 1) / 2)
    (heven : x = value (n + 1) - gap n / 2 → Even (n + 1))
    (heven' : x = value (n + 1) + gap (n + 1) / 2 → Even (n + 1)) : Reads x (n + 1) where
  below k hk := by
    cases hk
    exact (midpoint_eq n).trans_le hbelow
  above := habove
  even_of_eq_below k hk hx := by
    cases hk
    exact heven (hx.trans (midpoint_eq n))
  even_of_eq_above := heven'

/-- Going to the nearest magnitude keeps the order. -/
theorem mono {x' : ℚ} (h : Reads x n) (h' : Reads x' n') (hle : x ≤ x') : n ≤ n' := by
  by_contra hlt
  obtain ⟨k, rfl⟩ : ∃ k, n = k + 1 := ⟨n - 1, by omega⟩
  have hmid : midpoint n' ≤ midpoint k := midpoint_strictMono.monotone (by omega)
  -- both are on the midpoint of two magnitudes that would both be even
  obtain rfl : n' = k := midpoint_strictMono.injective
    (hmid.antisymm (((h.below k rfl).trans hle).trans h'.above))
  have hx : x = midpoint n' := (hle.trans h'.above).antisymm (h.below n' rfl)
  have hx' : x' = midpoint n' := h'.above.antisymm ((h.below n' rfl).trans hle)
  exact Nat.not_even_iff_odd.2 (h'.even_of_eq_above hx').add_one (h.even_of_eq_below n' rfl hx)

theorem unique (h : Reads x n) (h' : Reads x n') : n = n' :=
  (h.mono h' le_rfl).antisymm (h'.mono h le_rfl)

end Reads

/-- Rounding to the steps of the grid around a rational gives the nearest magnitude. -/
theorem reads_of_nearestEven {x : ℚ} {k m : ℕ} (h : NearestEven (x / 2 ^ (k - 1074 : ℤ)) m)
    (hlow : k = 0 ∨ hiddenBit * 2 ^ (k - 1074 : ℤ) ≤ x)
    (hhigh : x < (2 * hiddenBit : ℕ) * 2 ^ (k - 1074 : ℤ)) : Reads x (k * hiddenBit + m) := by
  have hp : (0 : ℚ) < 2 ^ (k - 1074 : ℤ) := zpow_pos (by norm_num) _
  have hm : m ≤ 2 * hiddenBit := by
    have := h.ge_of_ge (k := (2 * hiddenBit : ℕ)) ((div_le_iff₀ hp).2 (by exact_mod_cast hhigh.le))
    omega
  have hk : k = 0 ∨ hiddenBit ≤ m := hlow.imp_right fun hlow => by
    have := h.le_of_le (k := (hiddenBit : ℕ)) ((le_div_iff₀ hp).2 (by exact_mod_cast hlow))
    omega
  have heven : Even m → Even (k * hiddenBit + m) := fun hm =>
    (Even.mul_left (by decide) k).add hm
  -- after a carry the grid above is coarser, so the midpoint above is even farther away
  have hgap : 2 ^ (k - 1074 : ℤ) ≤ gap (k * hiddenBit + m) := by
    rcases hm.lt_or_eq with hlt | rfl
    · exact (gap_add hlt hk).ge
    · rw [← gap_add (m := hiddenBit) (by decide) (.inr le_rfl)]
      exact gap_mono (by omega)
  have hx : x = x / 2 ^ (k - 1074 : ℤ) * 2 ^ (k - 1074 : ℤ) := (div_mul_cancel₀ x hp.ne').symm
  have hvalue := value_add hm hk
  -- below a power of two the grid is finer, but there the rational is not below the magnitude
  have hmid : ∀ j, k * hiddenBit + m = j + 1 →
      midpoint j = (m - 1 / 2) * 2 ^ (k - 1074 : ℤ) ∨ midpoint j < x := by
    intro j hj
    by_cases hinner : k = 0 ∨ hiddenBit < m
    · obtain ⟨l, rfl⟩ : ∃ l, m = l + 1 := ⟨m - 1, by
        rcases hinner with rfl | hlt <;> omega⟩
      obtain rfl : j = k * hiddenBit + l := by omega
      left
      rw [midpoint, value_add (by omega) (by omega), gap_add (by omega) (by omega)]
      push_cast
      ring
    · obtain ⟨hk0, hnot⟩ := not_or.1 hinner
      obtain rfl : m = hiddenBit := (not_lt.1 hnot).antisymm (hk.resolve_left hk0)
      right
      refine (midpoint_lt_value j).trans_le ?_
      rw [← hj, hvalue]
      exact hlow.resolve_left hk0
  generalize (2 : ℚ) ^ (k - 1074 : ℤ) = s at *
  generalize x / s = u at *
  refine ⟨fun j hj => ?_, ?_, fun j hj hxj => ?_, fun hxn => ?_⟩
  · rcases hmid j hj with heq | hlt
    · rw [heq, hx]
      exact mul_le_mul_of_nonneg_right h.below hp.le
    · exact hlt.le
  · rw [midpoint, hvalue, hx]
    have := mul_le_mul_of_nonneg_right h.above hp.le
    linarith
  · rcases hmid j hj with heq | hlt
    · refine heven (h.even_of_eq_below (mul_right_cancel₀ hp.ne' ?_))
      rw [← hx, ← heq, hxj]
    · exact absurd hxj hlt.ne'
  · refine heven (h.even_of_eq_above (le_antisymm h.above (le_of_mul_le_mul_right ?_ hp)))
    rw [← hx, hxn, midpoint, hvalue]
    linarith

/-- The binary logarithms of numerator and denominator enclose a ratio between powers of two. -/
theorem zpow_log2_lt_value {r : Ratio} (hnum : 0 < r.num) (hden : 0 < r.den) :
    (2 : ℚ) ^ ((r.num.log2 : ℤ) - r.den.log2 - 1) < r.value ∧
      r.value < (2 : ℚ) ^ ((r.num.log2 : ℤ) - r.den.log2 + 1) := by
  have hd : (0 : ℚ) < r.den := by exact_mod_cast hden
  have hn : (0 : ℚ) < r.num := by exact_mod_cast hnum
  have hnlow : (2 : ℚ) ^ r.num.log2 ≤ r.num := by exact_mod_cast Nat.log2_self_le hnum.ne'
  have hnhigh : (r.num : ℚ) < 2 ^ (r.num.log2 + 1) := by exact_mod_cast Nat.lt_log2_self
  have hdlow : (2 : ℚ) ^ r.den.log2 ≤ r.den := by exact_mod_cast Nat.log2_self_le hden.ne'
  have hdhigh : (r.den : ℚ) < 2 ^ (r.den.log2 + 1) := by exact_mod_cast Nat.lt_log2_self
  rw [sub_sub, sub_add_eq_add_sub, zpow_sub₀ two_ne_zero, zpow_sub₀ two_ne_zero,
    ← Nat.cast_add_one, ← Nat.cast_add_one, zpow_natCast, zpow_natCast, zpow_natCast, zpow_natCast,
    Ratio.value, div_lt_div_iff₀ (by positivity) hd, div_lt_div_iff₀ hd (by positivity)]
  exact ⟨mul_lt_mul' hnlow hdhigh hd.le hn, mul_lt_mul hnhigh hdlow (by positivity) (by positivity)⟩

theorem hiddenBit_mul (e : ℤ) : (hiddenBit : ℚ) * 2 ^ e = 2 ^ (52 + e) := by
  rw [zpow_add₀ two_ne_zero]
  norm_num [hiddenBit]

theorem two_mul_hiddenBit_mul (e : ℤ) : ((2 * hiddenBit : ℕ) : ℚ) * 2 ^ e = 2 ^ (53 + e) := by
  rw [zpow_add₀ two_ne_zero]
  norm_num [hiddenBit]

/-- The mantissa of a ratio on its grid has at most 53 bits, and so many above the least grid. -/
theorem gridExponent_spec {r : Ratio} (hnum : 0 < r.num) (hden : 0 < r.den) :
    ∃ k : ℕ, gridExponent r = k - 1074 ∧ (k = 0 ∨ hiddenBit * 2 ^ (k - 1074 : ℤ) ≤ r.value) ∧
      r.value < (2 * hiddenBit : ℕ) * 2 ^ (k - 1074 : ℤ) := by
  obtain ⟨hlow, hhigh⟩ := zpow_log2_lt_value hnum hden
  -- the estimate from the logarithms is the exponent or one less, and the mantissa tells which
  obtain ⟨k, hk⟩ : ∃ k : ℕ, max ((r.num.log2 : ℤ) - r.den.log2 - 53) (-1074) = k - 1074 :=
    ⟨(max ((r.num.log2 : ℤ) - r.den.log2 - 53) (-1074) + 1074).toNat, by omega⟩
  have hfloor : (r.scaleDown 2 (k - 1074)).floor < 2 * hiddenBit ↔
      r.value < (2 * hiddenBit : ℕ) * 2 ^ (k - 1074 : ℤ) := by
    rw [Ratio.floor_lt_iff (Ratio.den_scaleDown_pos hden (by decide) _),
      Ratio.value_scaleDown r (by decide), Nat.cast_ofNat, div_lt_iff₀ (zpow_pos (by norm_num) _)]
  rw [gridExponent, hk]
  split
  · rename_i hlt
    refine ⟨k, rfl, ?_, hfloor.1 hlt⟩
    rw [hiddenBit_mul]
    by_cases hk0 : k = 0
    · exact .inl hk0
    · exact .inr ((zpow_le_zpow_right₀ (by norm_num) (by omega)).trans hlow.le)
  · rename_i hge
    rw [hfloor, not_lt, two_mul_hiddenBit_mul] at hge
    refine ⟨k + 1, by push_cast; ring, .inr ?_, ?_⟩
    · rw [hiddenBit_mul]
      exact (zpow_le_zpow_right₀ (by norm_num) (by push_cast; omega)).trans hge
    · rw [two_mul_hiddenBit_mul]
      exact hhigh.trans_le (zpow_le_zpow_right₀ (by norm_num) (by push_cast; omega))

theorem magnitudeOf_le (r : Ratio) : magnitudeOf r ≤ infinityBits := by
  unfold magnitudeOf
  split
  · exact Nat.zero_le _
  · exact Nat.min_le_right _ _

/-- The computed magnitude is the nearest one, up to the magnitude of infinity. -/
theorem reads_magnitudeOf {r : Ratio} (hnum : 0 < r.num) (hden : 0 < r.den) :
    ∃ n, magnitudeOf r = min n infinityBits ∧ Reads r.value n := by
  obtain ⟨k, hk, hlow, hhigh⟩ := gridExponent_spec hnum hden
  refine ⟨k * hiddenBit + (r.scaleDown 2 (k - 1074)).round, ?_, ?_⟩
  · rw [magnitudeOf, if_neg hnum.ne', hk]
    dsimp only
    rw [sub_add_cancel, Int.toNat_natCast]
  · refine reads_of_nearestEven ?_ hlow hhigh
    rw [← Nat.cast_ofNat (R := ℚ), ← Ratio.value_scaleDown r (by decide)]
    exact Ratio.nearestEven_round (Ratio.den_scaleDown_pos hden (by decide) _)

/-! ## Rounding again -/

/-- Where the gap changes there is a power of two. -/
theorem gap_eq_or (n : ℕ) : gap n = gap (n + 1) ∨ ∃ k : ℕ, 1 ≤ k ∧ n + 1 = (k + 1) * hiddenBit ∧
    value (n + 1) = 2 ^ (k - 1022 : ℤ) ∧ gap (n + 1) = 2 ^ (k - 1074 : ℤ) := by
  obtain ⟨k, m, hn, hm, hk⟩ := exists_steps (n + 1)
  -- inside a block of equal steps the gap stays, at its first mantissa it doubles
  by_cases hinner : k = 0 ∨ hiddenBit < m
  · obtain ⟨l, rfl⟩ : ∃ l, m = l + 1 := ⟨m - 1, by
      rcases hinner with rfl | hlt <;> omega⟩
    obtain rfl : n = k * hiddenBit + l := by omega
    left
    rw [add_assoc, gap_add (by omega) (by omega), gap_add hm hk]
  · obtain ⟨hk0, hnot⟩ := not_or.1 hinner
    obtain rfl : m = hiddenBit := (not_lt.1 hnot).antisymm (hk.resolve_left hk0)
    right
    refine ⟨k, by omega, by rw [hn]; ring, ?_, by rw [hn, gap_add hm hk]⟩
    rw [hn, value_add hm.le hk, hiddenBit_mul]
    congr 1
    ring

/-- No power of ten with so few digits is next to a power of two without being one. -/
theorem powers_apart : ∀ j < 330,
    (10 ^ j = 2 ^ (10 ^ j).log2 ∨ 2 ^ (10 ^ j).log2 * (2 ^ 53 + 1) < 10 ^ j * 2 ^ 53) ∧
      10 ^ j * (2 ^ 53 + 1) < 2 ^ ((10 ^ j).log2 + 1) * 2 ^ 53 := by
  decide +kernel

theorem lt_of_ten_pow_le {j q : ℕ} (hq : q ≤ 1023) (h : 10 ^ j ≤ 2 ^ q * (2 ^ 53 + 1)) :
    j < 330 := by
  by_contra hj
  have hten := Nat.pow_le_pow_right (n := 10) (by decide) (not_lt.1 hj)
  have htwo := Nat.pow_le_pow_right (n := 2) (by decide) hq
  exact absurd (hten.trans (h.trans (Nat.mul_le_mul_right _ htwo))) (by decide +kernel)

theorem two_pow_lt_ten_pow {j q : ℕ} (hq : q ≤ 1023) (h : 2 ^ q < 10 ^ j) :
    2 ^ q * (2 ^ 53 + 1) < 10 ^ j * 2 ^ 53 := by
  by_contra hle
  have hj := lt_of_ten_pow_le (j := j) hq (by omega)
  -- the power of two is the one below the power of ten, which was looked at
  have hlog : (10 ^ j).log2 = q := (Nat.log2_eq_iff (by positivity)).2 ⟨h.le, by omega⟩
  obtain ⟨heq | hlt, -⟩ := powers_apart j hj
  · exact h.ne (hlog ▸ heq.symm)
  · exact hle (hlog ▸ hlt)

theorem ten_pow_lt_two_pow {j q : ℕ} (hq : q ≤ 1022) (h : 10 ^ j < 2 ^ (q + 1)) :
    10 ^ j * (2 ^ 53 + 1) < 2 ^ (q + 1) * 2 ^ 53 := by
  by_contra hle
  have hj := lt_of_ten_pow_le (j := j) (q := q + 1) (by omega) (by omega)
  have hlog : (10 ^ j).log2 = q := (Nat.log2_eq_iff (by positivity)).2 ⟨by omega, h⟩
  exact hle (hlog ▸ (powers_apart j hj).2)

/-- In the range of doubles a power of ten above a power of two is above the midpoint that follows
it. -/
theorem two_zpow_add_lt {p e : ℤ} (hlow : -1021 ≤ p) (hhigh : p ≤ 1023)
    (h : (2 : ℚ) ^ p < 10 ^ e) : (2 : ℚ) ^ p + 2 ^ (p - 53) < 10 ^ e := by
  have hsum : (2 : ℚ) ^ p + 2 ^ (p - 53) = 2 ^ p * (2 ^ 53 + 1) / 2 ^ 53 := by
    rw [zpow_sub₀ two_ne_zero]
    field_simp
  rw [hsum, div_lt_iff₀ (by positivity)]
  -- the signs of the exponents decide on which side the powers stand as whole numbers
  cases p with
  | ofNat q =>
    rw [Int.ofNat_eq_natCast, zpow_natCast] at *
    cases e with
    | ofNat j =>
      rw [Int.ofNat_eq_natCast, zpow_natCast] at *
      exact_mod_cast two_pow_lt_ten_pow (by omega) (by exact_mod_cast h)
    | negSucc j =>
      rw [zpow_negSucc] at h
      have hinv : ((10 : ℚ) ^ (j + 1))⁻¹ ≤ 1 := inv_le_one_of_one_le₀ (one_le_pow₀ (by norm_num))
      exact absurd (h.trans_le hinv) (not_lt.2 (one_le_pow₀ (by norm_num)))
  | negSucc q =>
    rw [zpow_negSucc] at *
    have hq : (0 : ℚ) < 2 ^ (q + 1) := by positivity
    rw [inv_mul_lt_iff₀ hq]
    cases e with
    | ofNat j =>
      rw [Int.ofNat_eq_natCast, zpow_natCast] at *
      calc
        (2 : ℚ) ^ 53 + 1 < 2 ^ 1 * (1 * 2 ^ 53) := by norm_num
        _ ≤ 2 ^ (q + 1) * (10 ^ j * 2 ^ 53) := by
          gcongr
          · norm_num
          · omega
          · exact one_le_pow₀ (by norm_num)
    | negSucc j =>
      rw [zpow_negSucc] at *
      have hj : (0 : ℚ) < 10 ^ (j + 1) := by positivity
      rw [inv_lt_inv₀ hq hj] at h
      rw [inv_mul_eq_div, mul_div_assoc', lt_div_iff₀ hj, mul_comm]
      exact_mod_cast ten_pow_lt_two_pow (by omega) (by exact_mod_cast h)

section Again

open Decimal

variable {count a b : ℕ} {c z : Decimal}

/-- A double at a power of two whose decimal came from above has no decimal below it. -/
theorem value_le_of_power {k : ℕ} (hcount : 1 ≤ count) (hc : Rounds count (value a) c)
    (hz : Rounds count (value b) z) (hk : 1 ≤ k) (hk' : k ≤ 2045)
    (hvalue : value b = 2 ^ (k - 1022 : ℤ)) (hgap : gap b = 2 ^ (k - 1074 : ℤ))
    (habove : value b < c.value) (hmid : c.value ≤ midpoint b) : value b ≤ z.value := by
  by_contra hbelow
  rw [not_le] at hbelow
  have hnear := hz.abs_sub_le hcount hc
  rw [abs_of_pos (sub_pos.2 hbelow), abs_of_neg (sub_neg.2 habove)] at hnear
  -- the first number is at least one gap above
  have hlt : b < a := by
    by_contra hle
    have hmono := hc.mono hz hcount (value_strictMono.monotone (not_lt.1 hle))
    linarith
  have hstep : value b + gap b ≤ value a := by
    rw [← value_succ]
    exact value_strictMono.monotone hlt
  rw [midpoint] at hmid
  have hexponent : z.exponent = c.exponent := by
    refine (hz.exponent_le hc (value_strictMono hlt).le).antisymm (not_lt.1 fun hexponent => ?_)
    -- a power of ten would be between the double and the midpoint above
    have hpower : value b < (10 : ℚ) ^ (c.exponent + count - 1) :=
      hz.upper.trans_le (zpow_le_zpow_right₀ (by norm_num) (by omega))
    have hcarry := hc.le_value hcount
    rw [hvalue] at hpower
    have hfar := two_zpow_add_lt (by omega) (by omega) hpower
    have hhalf : (2 : ℚ) ^ ((k : ℤ) - 1022 - 53) = gap b / 2 := by
      rw [hgap, show (k : ℤ) - 1074 = k - 1022 - 53 + 1 by ring, zpow_add_one₀ two_ne_zero]
      ring
    rw [hhalf, ← hvalue] at hfar
    linarith
  -- both decimals are on one grid, so they are next to each other and the numbers are halfway
  have hs : (0 : ℚ) < 10 ^ c.exponent := zpow_pos (by norm_num) _
  have hcnear := hc.nearest
  have hznear := hz.nearest
  have hcvalue : c.value = c.digits * 10 ^ c.exponent := rfl
  have hzvalue : z.value = z.digits * 10 ^ c.exponent := by rw [Decimal.value, hexponent]
  rw [hexponent] at hznear
  generalize (10 : ℚ) ^ c.exponent = s at *
  have hca := (div_le_iff₀ hs).1 hcnear.above
  have hza := (div_le_iff₀ hs).1 hznear.above
  have hdigits : (z.digits : ℚ) + 1 ≤ c.digits := by
    have hlt : (z.digits : ℚ) < c.digits := by
      refine lt_of_mul_lt_mul_right ?_ hs.le
      rw [← hzvalue, ← hcvalue]
      exact hbelow.trans habove
    exact_mod_cast Nat.succ_le_of_lt (by exact_mod_cast hlt)
  have hnext := mul_le_mul_of_nonneg_right hdigits hs.le
  have hstep : (c.digits : ℚ) * s = z.digits * s + s := by linarith
  have hceven : Even c.digits := hcnear.even_of_eq_above (by
    rw [div_eq_iff hs.ne']
    linarith)
  have hzeven : Even z.digits := hznear.even_of_eq_above (by
    rw [div_eq_iff hs.ne']
    linarith)
  have hodd : c.digits = z.digits + 1 := by
    have : (c.digits : ℚ) = (z.digits + 1 : ℕ) := mul_right_cancel₀ hs.ne' (by
      push_cast
      linarith)
    exact_mod_cast this
  exact Nat.not_even_iff_odd.2 (hodd ▸ hzeven.add_one) hceven

/-- The double that a rounded double is read as is read again when it is rounded itself. -/
theorem reads_again (hcount : 1 ≤ count) (hc : Rounds count (value a) c) (hb : Reads c.value b)
    (hz : Rounds count (value b) z) (hfinite : b < infinityBits) : Reads z.value b := by
  have hnear := hz.abs_sub_le hcount hc
  obtain ⟨k, rfl⟩ : ∃ k, b = k + 1 := ⟨b - 1, by
    rcases b with _ | b
    · exact absurd hz.pos (by simp [value])
    · omega⟩
  have hbelow : value (k + 1) - gap k / 2 ≤ c.value := (midpoint_eq k) ▸ hb.below k rfl
  have habove : c.value ≤ value (k + 1) + gap (k + 1) / 2 := hb.above
  have hmono : gap k ≤ gap (k + 1) := gap_mono (Nat.le_succ k)
  rcases le_or_gt c.value (value (k + 1)) with hle | hgt
  · -- the decimal came from below, and the midpoint above is at least as far as the one below
    rw [abs_of_nonneg (sub_nonneg.2 hle)] at hnear
    obtain ⟨hlow, hhigh⟩ := abs_le.1 hnear
    refine .of_succ ?_ ?_ (fun hx => ?_) fun hx => ?_
    · linarith
    · linarith
    · exact hb.even_of_eq_below k rfl (by rw [midpoint_eq]; linarith)
    · exact hb.even_of_eq_below k rfl (by rw [midpoint_eq]; linarith)
  · -- the decimal came from above: only a finer grid below can take the double elsewhere
    rw [abs_of_neg (sub_neg.2 hgt)] at hnear
    obtain ⟨hlow, hhigh⟩ := abs_le.1 hnear
    rcases gap_eq_or k with hgap | ⟨j, hj, hpower, hvalue, hgap⟩
    · refine .of_succ ?_ ?_ (fun hx => ?_) fun hx => ?_
      · linarith
      · linarith
      · exact hb.even_of_eq_above (by rw [midpoint]; linarith)
      · exact hb.even_of_eq_above (by rw [midpoint]; linarith)
    · -- below a power of two the grid is finer, but no decimal is there
      have hz : value (k + 1) ≤ z.value := value_le_of_power hcount hc hz hj (by
        rw [hpower] at hfinite
        have hinfinity : infinityBits = 2047 * hiddenBit := by decide
        have := lt_of_mul_lt_mul_right (hfinite.trans_eq hinfinity) (Nat.zero_le _)
        omega) hvalue hgap hgt habove
      have hpos := gap_pos k
      refine .of_succ ?_ ?_ (fun hx => ?_) fun hx => ?_
      · linarith
      · linarith
      · linarith
      · exact hb.even_of_eq_above (by rw [midpoint]; linarith)

end Again

end Discretization.Binary64
