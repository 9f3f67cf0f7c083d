import Discretization.Proofs.Packing

/-!
# Arithmetic of Doubles

The four operations on finite doubles give the double nearest to the exact result, or infinity where
that is too large. Since going to the nearest double keeps the order, bounds on exact results are
bounds on computed ones, as long as they are doubles themselves.

## Main definitions

* `Binary64.Rounded`: a key is that of the double nearest to a rational;
* `Binary64.Means`: an unpacked number stands for a rational.

## Main results

* `Binary64.rounded_add`, `Binary64.rounded_sub`, `Binary64.rounded_mul`, `Binary64.rounded_div`:
  what is computed is the double nearest to the exact result;
* `Binary64.le_iff_key`: finite doubles are ordered as their keys;
* `Binary64.key_roundSignificant_mono`: rounding to significant digits keeps the order;
* `StrictScalar Float`: arithmetic with an infinite or undefined double gives no finite one.
-/

namespace Discretization.Binary64

open Float.Model Float.Model.UnpackedFloat

/-! ## The nearest double -/

/-- Infinity stands for everything beyond the greatest double. -/
def clamp (k : ℤ) : ℤ :=
  max (-infinityBits) (min k infinityBits)

/-- A key is that of the double nearest to a rational. -/
def Rounded (q : ℚ) (k : ℤ) : Prop :=
  ∃ j, Nearest q j ∧ k = clamp j

theorem clamp_mono {j k : ℤ} (h : j ≤ k) : clamp j ≤ clamp k :=
  max_le_max_left _ (min_le_min_right _ h)

theorem clamp_eq {k : ℤ} (h : k.natAbs ≤ infinityBits) : clamp k = k := by
  unfold clamp
  omega

theorem clamp_apply (s : Sign) (n : ℕ) :
    clamp (s.apply n) = s.apply (min n infinityBits : ℕ) := by
  unfold clamp
  cases s <;> simp only [Sign.apply] <;> omega

namespace Rounded

variable {q q' : ℚ} {k k' : ℤ}

/-- Rounding keeps the order. -/
theorem mono (h : Rounded q k) (h' : Rounded q' k') (hle : q ≤ q') : k ≤ k' := by
  obtain ⟨j, hj, rfl⟩ := h
  obtain ⟨j', hj', rfl⟩ := h'
  exact clamp_mono (hj.mono hj' hle)

theorem unique (h : Rounded q k) (h' : Rounded q k') : k = k' :=
  (h.mono h' le_rfl).antisymm (h'.mono h le_rfl)

/-- What is a double is not changed. -/
theorem point (hk : k.natAbs ≤ infinityBits) : Rounded (point k) k :=
  ⟨k, .point k, (clamp_eq hk).symm⟩

theorem nearest (h : Rounded q k) (hk : k.natAbs < infinityBits) : Nearest q k := by
  obtain ⟨j, hj, rfl⟩ := h
  have hclamp : clamp j = j := by
    unfold clamp at *
    omega
  rwa [hclamp]

end Rounded

/-! ## Arithmetic on unpacked numbers -/

/-- An unpacked number with steps and mantissa of a double stands for a rational. -/
inductive Means : UnpackedFloat → ℚ → Prop where
  | zero (s : Sign) : Means (.zero s) 0
  | finite (s : Sign) {k m : ℕ} (h : Canonical k m) (hm : 0 < m) :
    Means (.finite s m (k - 1074) hm) (s.apply m * 2 ^ (k - 1074 : ℤ))

theorem Extends.exact (m : ℕ) : Extends m (.ofMantissaAndAccuracy m .exact) := by
  refine ⟨?_, ?_, ?_⟩ <;> simp [ExtendedMantissa.ofMantissaAndAccuracy]

/-- Quotient and remainder give a ratio. -/
theorem Extends.quotient (m : ℕ) {n : ℕ} (hn : 0 < n) :
    Extends (m / n) (.ofMantissaAndAccuracy (m / n) (accuracyOfFraction (m % n) n)) := by
  have hn' : (0 : ℚ) < n := by exact_mod_cast hn
  have hsplit : (m : ℚ) / n = (m / n : ℕ) + (m % n : ℕ) / n := by
    rw [add_div' _ _ _ hn'.ne', ← Nat.cast_mul, ← Nat.cast_add, Nat.div_add_mod']
  have hlt : ((m % n : ℕ) : ℚ) / n < 1 :=
    (div_lt_one hn').2 (by exact_mod_cast Nat.mod_lt m hn)
  rw [hsplit]
  generalize m % n = r at *
  unfold accuracyOfFraction
  split
  · rename_i hzero
    rw [hzero, Nat.cast_zero, zero_div, add_zero]
    exact .exact _
  rename_i hrest
  have hpos : 0 < (r : ℚ) / n := div_pos (by exact_mod_cast Nat.pos_of_ne_zero hrest) hn'
  -- the remainder is compared with half of the divisor
  rcases lt_trichotomy (2 * r) n with hhalf | hhalf | hhalf
  · rw [Nat.compare_eq_lt.2 hhalf]
    have hbelow : (r : ℚ) / n < 1 / 2 := (div_lt_iff₀ hn').2 (by
      have : ((2 * r : ℕ) : ℚ) < n := by exact_mod_cast hhalf
      push_cast at this
      linarith)
    refine ⟨?_, ?_, iff_of_false (fun h => ?_) Bool.noConfusion⟩
    all_goals
      simp only [ExtendedMantissa.ofMantissaAndAccuracy, Bool.toNat_false, Nat.cast_zero] at *
      linarith
  · rw [Nat.compare_eq_eq.2 hhalf]
    have hmiddle : (r : ℚ) / n = 1 / 2 := (div_eq_iff hn'.ne').2 (by
      rw [← hhalf]
      push_cast
      ring)
    rw [hmiddle]
    refine ⟨?_, ?_, iff_of_true ?_ rfl⟩
    all_goals simp [ExtendedMantissa.ofMantissaAndAccuracy]
  · rw [Nat.compare_eq_gt.2 hhalf]
    have habove : 1 / 2 < (r : ℚ) / n := (lt_div_iff₀ hn').2 (by
      have : (n : ℚ) < (2 * r : ℕ) := by exact_mod_cast hhalf
      push_cast at this
      linarith)
    refine ⟨?_, ?_, iff_of_false (fun h => ?_) Bool.noConfusion⟩
    all_goals
      simp only [ExtendedMantissa.ofMantissaAndAccuracy, Bool.toNat_true, Nat.cast_one] at *
      linarith

theorem rounded_zero (s : Sign) : Rounded 0 (keyOf (UnpackedFloat.pack .binary64 (.zero s))) := by
  rw [keyOf_pack_zero, ← point_zero]
  exact .point (by decide)

theorem apply_eq_mul (s : Sign) (n : ℤ) : s.apply n = s.apply 1 * n := by
  cases s <;> simp [Sign.apply]

theorem apply_neg (s : Sign) (n : ℤ) : -s.apply n = (-s).apply n := by
  cases s
  · exact neg_neg n
  · rfl

theorem apply_mul (s s' : Sign) (m n : ℤ) : s.apply m * s'.apply n = (s * s').apply (m * n) := by
  cases s <;> cases s' <;> simp [Sign.apply]

theorem apply_div (s s' : Sign) (m n : ℕ) :
    ((s.apply m : ℤ) / (s'.apply n : ℤ) : ℚ) = (s / s').apply 1 * (m / n) := by
  have hsign : (s / s').apply 1 = s.apply 1 * s'.apply 1 := by
    cases s <;> cases s' <;> rfl
  rw [hsign]
  cases s <;> cases s' <;> simp [Sign.apply, neg_div, div_neg]

theorem point_apply (s : Sign) (n : ℤ) : point (s.apply n) = s.apply 1 * point n := by
  cases s <;> simp [Sign.apply]

theorem Nearest.apply {q : ℚ} {k : ℤ} (h : Nearest q k) (s : Sign) :
    Nearest (s.apply 1 * q) (s.apply k) := by
  cases s with
  | positive => simpa [Sign.apply] using h
  | negative => simpa [Sign.apply] using h.neg

theorem rounded_roundWithAccuracy (s : Sign) {m : ℕ} {e : ℤ} {accuracy : Accuracy} {x : ℚ}
    (hx : Extends (x / 2 ^ e) (.ofMantissaAndAccuracy m accuracy))
    (he : e ≤ max (m.log2 + 1 + e - 53) (-1074)) :
    Rounded (s.apply 1 * x)
      (keyOf (UnpackedFloat.pack .binary64 (roundWithAccuracy .binary64 s m e accuracy))) := by
  obtain ⟨n, hn, hkey⟩ := keyOf_roundWithAccuracy s hx he
  have hp : (0 : ℚ) < 2 ^ e := zpow_pos (by norm_num) _
  have hpos : 0 ≤ x := by
    rw [← div_mul_cancel₀ x hp.ne']
    exact mul_nonneg ((Nat.cast_nonneg m).trans hx.bounds.1) hp.le
  exact ⟨s.apply n, (Nearest.of_reads hn hpos).apply s, by rw [hkey, clamp_apply]⟩

theorem log2_shiftLeft {m : ℕ} (hm : m ≠ 0) (t : ℕ) : (m <<< t).log2 = m.log2 + t := by
  rw [Nat.shiftLeft_eq, Nat.log2_eq_iff (by positivity), pow_add, add_right_comm, pow_add]
  constructor
  · gcongr
    exact Nat.log2_self_le hm
  · gcongr
    exact Nat.lt_log2_self

/-- How many bits a quotient has at least. -/
theorem le_log2_shiftLeft_div {m m' : ℕ} (hm : m ≠ 0) (hm' : 0 < m') (t : ℕ) :
    m.log2 + t - (m'.log2 + 1) ≤ (m <<< t / m').log2 := by
  -- the subtraction is cut off at zero where the divisor has more bits
  rcases le_or_gt (m.log2 + t) (m'.log2 + 1) with hsmall | hlarge
  · rw [Nat.sub_eq_zero_of_le hsmall]
    exact Nat.zero_le _
  have hlow : 2 ^ (m.log2 + t) ≤ m <<< t := by
    rw [Nat.shiftLeft_eq, pow_add]
    exact Nat.mul_le_mul_right _ (Nat.log2_self_le hm)
  have hpower : 2 ^ (m.log2 + t - (m'.log2 + 1)) ≤ m <<< t / m' := by
    rw [Nat.le_div_iff_mul_le hm']
    calc
      2 ^ (m.log2 + t - (m'.log2 + 1)) * m' ≤
          2 ^ (m.log2 + t - (m'.log2 + 1)) * 2 ^ (m'.log2 + 1) :=
        Nat.mul_le_mul_left _ Nat.lt_log2_self.le
      _ = 2 ^ (m.log2 + t) := by rw [← pow_add, Nat.sub_add_cancel hlarge.le]
      _ ≤ m <<< t := hlow
  exact (Nat.le_log2 ((Nat.two_pow_pos _).trans_le hpower).ne').2 hpower

theorem rounded_round (s : Sign) {m : ℕ} (hm : m ≠ 0) (e : ℤ) :
    Rounded (s.apply m * 2 ^ e)
      (keyOf (UnpackedFloat.pack .binary64 (UnpackedFloat.round .binary64 s m e))) := by
  -- the mantissa is widened by the bits that the target exponent leaves room for
  obtain ⟨t, ht⟩ : ∃ t, t = (e - max ((m.log2 : ℤ) + 1 + e - 53) (-1074)).toNat := ⟨_, rfl⟩
  have hround : UnpackedFloat.round .binary64 s m e =
      roundWithAccuracy .binary64 s (m <<< t) (e - t) .exact := by
    rw [ht]
    rfl
  -- widening does not change the number, so nothing has been lost before the rounding
  have hx : ((m : ℚ) * 2 ^ e) / 2 ^ (e - t : ℤ) = (m <<< t : ℕ) := by
    rw [mul_div_assoc, ← zpow_sub₀ two_ne_zero, sub_sub_cancel, zpow_natCast, Nat.shiftLeft_eq]
    push_cast
    rfl
  have hrounded := rounded_roundWithAccuracy s (x := m * 2 ^ e) (hx ▸ Extends.exact (m <<< t)) (by
    rw [log2_shiftLeft hm]
    push_cast
    omega)
  rw [hround, apply_eq_mul]
  push_cast
  rwa [mul_assoc]

theorem rounded_normalize (m e : ℤ) (s : Sign) :
    Rounded (m * 2 ^ e)
      (keyOf (UnpackedFloat.pack .binary64 (UnpackedFloat.normalize .binary64 m e s))) := by
  unfold UnpackedFloat.normalize
  rcases lt_trichotomy m 0 with hm | rfl | hm
  · rw [Int.compare_eq_lt.2 hm]
    have := rounded_round .negative (m := (-m).toNat) (by omega) e
    rwa [Int.toNat_of_nonneg (by omega), Sign.apply, neg_neg] at this
  · rw [Int.cast_zero, zero_mul]
    exact rounded_zero s
  · rw [Int.compare_eq_gt.2 hm]
    have := rounded_round .positive (m := m.toNat) (by omega) e
    rwa [Int.toNat_of_nonneg (by omega)] at this

namespace Means

variable {u v : UnpackedFloat} {q r : ℚ}

theorem rounded (h : Means u q) : Rounded q (keyOf (UnpackedFloat.pack .binary64 u)) := by
  cases h with
  | zero s => exact rounded_zero s
  | finite s h hm =>
    rename_i k m
    refine ⟨s.apply (k * hiddenBit + m : ℕ), ?_, by rw [keyOf_pack s h hm, clamp_apply]⟩
    have hvalue := value_add h.lt.le h.normal
    have := (Nearest.point (k * hiddenBit + m : ℕ)).apply s
    rw [point_natCast, hvalue, ← mul_assoc] at this
    rw [apply_eq_mul]
    exact_mod_cast this

theorem neg (h : Means u q) : Means u.neg (-q) := by
  cases h with
  | zero s => exact neg_zero (G := ℚ) ▸ .zero (-s)
  | finite s h hm =>
    rw [← neg_mul, ← Int.cast_neg, apply_neg]
    exact .finite (-s) h hm

/-- Both numbers are put on the finer one of their grids. -/
theorem add (hu : Means u q) (hv : Means v r) :
    Rounded (q + r) (keyOf (UnpackedFloat.pack .binary64 (UnpackedFloat.add .binary64 u v))) := by
  cases hu with
  | zero s =>
    cases hv with
    | zero s' =>
      rw [add_zero]
      unfold UnpackedFloat.add
      dsimp only
      split <;> exact rounded_zero _
    | finite s' h' hm' =>
      rw [zero_add]
      exact (Means.finite s' h' hm').rounded
  | finite s h hm =>
    rename_i k m
    cases hv with
    | zero s' =>
      rw [add_zero]
      exact (Means.finite s h hm).rounded
    | finite s' h' hm' =>
      rename_i k' m'
      -- the mantissa with the larger exponent is shifted to the smaller one, which is exact
      have shifted : ∀ (s : Sign) (m : ℕ) (e e' : ℤ), e' ≤ e →
          (s.apply m * 2 ^ e : ℚ) = s.apply (m <<< (e - e').toNat : ℕ) * 2 ^ e' := by
        intro s m e e' he
        rw [apply_eq_mul s m, apply_eq_mul s (m <<< _ : ℕ), Nat.shiftLeft_eq]
        push_cast
        rw [mul_assoc, mul_assoc, mul_assoc, ← zpow_natCast, Int.toNat_of_nonneg (by omega),
          ← zpow_add₀ two_ne_zero, sub_add_cancel]
      rw [shifted s m _ (min (k - 1074) (k' - 1074)) (min_le_left _ _),
        shifted s' m' _ (min (k - 1074) (k' - 1074)) (min_le_right _ _), ← add_mul, ← Int.cast_add]
      exact rounded_normalize _ _ _

/-- Subtraction adds the negative. -/
theorem sub (hu : Means u q) (hv : Means v r) :
    Rounded (q - r) (keyOf (UnpackedFloat.pack .binary64 (UnpackedFloat.sub .binary64 u v))) := by
  have hsub : UnpackedFloat.sub .binary64 u v = UnpackedFloat.add .binary64 u v.neg := by
    cases hu with
    | zero s => cases hv <;> rfl
    | finite s h hm =>
      cases hv with
      | zero s' => rfl
      | finite s' h' hm' =>
        unfold UnpackedFloat.sub UnpackedFloat.add
        dsimp only [UnpackedFloat.neg]
        rw [← apply_neg, sub_eq_add_neg]
  rw [hsub, sub_eq_add_neg]
  exact hu.add hv.neg

theorem mul (hu : Means u q) (hv : Means v r) :
    Rounded (q * r) (keyOf (UnpackedFloat.pack .binary64 (UnpackedFloat.mul .binary64 u v))) := by
  cases hu with
  | zero s =>
    rw [zero_mul]
    cases hv <;> exact rounded_zero _
  | finite s h hm =>
    rename_i k m
    cases hv with
    | zero s' =>
      rw [mul_zero]
      exact rounded_zero _
    | finite s' h' hm' =>
      rename_i k' m'
      have hproduct : (s.apply m * 2 ^ (k - 1074 : ℤ) * (s'.apply m' * 2 ^ (k' - 1074 : ℤ)) : ℚ) =
          (s * s').apply 1 * ((m * m' : ℕ) * 2 ^ (k - 1074 + (k' - 1074) : ℤ)) := by
        rw [zpow_add₀ two_ne_zero, mul_mul_mul_comm, ← Int.cast_mul, apply_mul, apply_eq_mul]
        push_cast
        ring
      rw [hproduct]
      refine rounded_roundWithAccuracy (s * s') ?_ ?_
      · rw [mul_div_cancel_right₀ _ (zpow_ne_zero _ two_ne_zero)]
        exact Extends.exact _
      · -- a normal factor fills the mantissa of the product
        have hfull : hiddenBit ≤ m * m' ∨ k = 0 ∧ k' = 0 := by
          rcases h.normal with hk | hge
          · rcases h'.normal with hk' | hge'
            · exact .inr ⟨hk, hk'⟩
            · exact .inl (hge'.trans (Nat.le_mul_of_pos_left _ hm))
          · exact .inl (hge.trans (Nat.le_mul_of_pos_right _ hm'))
        rcases hfull with hfull | ⟨rfl, rfl⟩
        · have hlog : 52 ≤ (m * m').log2 := (Nat.le_log2 (Nat.mul_pos hm hm').ne').2 hfull
          omega
        · omega

/-- The quotient gets enough bits, and the remainder tells what comes after them. -/
theorem div (hu : Means u q) (hv : Means v r) (hr : r ≠ 0) :
    Rounded (q / r) (keyOf (UnpackedFloat.pack .binary64 (UnpackedFloat.div .binary64 u v))) := by
  cases hv with
  | zero s' => exact absurd rfl hr
  | finite s' h' hm' =>
    rename_i k' m'
    cases hu with
    | zero s =>
      rw [zero_div]
      exact rounded_zero _
    | finite s h hm =>
      rename_i k m
      -- the exponent of the quotient, and how far the dividend is shifted for it
      obtain ⟨e, he⟩ : ∃ e, e = min ((k : ℤ) - 1074 - (k' - 1074))
          (max (m.log2 + 1 + (k - 1074) - (m'.log2 + 1 + (k' - 1074)) - 53) (-1074)) := ⟨_, rfl⟩
      obtain ⟨t, ht⟩ : ∃ t, t = ((k : ℤ) - 1074 - (k' - 1074) - e).toNat := ⟨_, rfl⟩
      have hdiv : UnpackedFloat.div .binary64 (.finite s m (k - 1074) hm)
          (.finite s' m' (k' - 1074) hm') = roundWithAccuracy .binary64 (s / s') (m <<< t / m') e
            (accuracyOfFraction (m <<< t % m') m') := by
        rw [ht, he]
        rfl
      -- the quotient of the rationals is that of the mantissas, with its sign and exponent
      have hquotient : (s.apply m * 2 ^ (k - 1074 : ℤ) / (s'.apply m' * 2 ^ (k' - 1074 : ℤ)) : ℚ) =
          (s / s').apply 1 * ((m / m') * 2 ^ (k - 1074 - (k' - 1074) : ℤ)) := by
        rw [mul_div_mul_comm, apply_div, zpow_sub₀ two_ne_zero ((k : ℤ) - 1074), mul_assoc]
      rw [hdiv, hquotient]
      refine rounded_roundWithAccuracy (s / s') ?_ ?_
      · have hshifted : (m / m' : ℚ) * 2 ^ (k - 1074 - (k' - 1074) : ℤ) / 2 ^ e =
            (m <<< t : ℕ) / m' := by
          rw [mul_div_assoc, ← zpow_sub₀ two_ne_zero, Nat.shiftLeft_eq, Nat.cast_mul, Nat.cast_pow,
            Nat.cast_ofNat, ← zpow_natCast, ht, Int.toNat_of_nonneg (by omega), div_mul_eq_mul_div]
        rw [hshifted]
        exact Extends.quotient _ hm'
      · have hbits := le_log2_shiftLeft_div hm.ne' hm' t
        omega

end Means

/-! ## Arithmetic on doubles -/

section Operations

variable {x y : Float}

theorem means_unpack (hx : Finite x) : Means x.toModel.unpack (rational x) := by
  obtain ⟨s, hs, hkey⟩ | ⟨s, k, m, hm, hs, hcanonical, hkey⟩ := unpack_eq hx
  · rw [rational, key, hkey, point_zero]
    exact (congrArg (Means · 0) hs).mpr (.zero s)
  · rw [rational, key, hkey, point_apply, point_natCast, value_add hcanonical.lt.le
      hcanonical.normal, ← mul_assoc, ← Int.cast_natCast m, ← Int.cast_mul, ← apply_eq_mul]
    exact (congrArg (Means · _) hs).mpr (.finite s hcanonical hm)

theorem rounded_add (hx : Finite x) (hy : Finite y) :
    Rounded (rational x + rational y) (key (x + y)) :=
  (means_unpack hx).add (means_unpack hy)

theorem rounded_sub (hx : Finite x) (hy : Finite y) :
    Rounded (rational x - rational y) (key (x - y)) :=
  (means_unpack hx).sub (means_unpack hy)

theorem rounded_mul (hx : Finite x) (hy : Finite y) :
    Rounded (rational x * rational y) (key (x * y)) :=
  (means_unpack hx).mul (means_unpack hy)

theorem rounded_div (hx : Finite x) (hy : Finite y) (hzero : rational y ≠ 0) :
    Rounded (rational x / rational y) (key (x / y)) :=
  (means_unpack hx).div (means_unpack hy) hzero

theorem isFinite_iff : Scalar.isFinite x = true ↔ Finite x := by
  change x.toModel.unpack.isFinite = true ↔ _
  constructor
  · intro h
    by_contra hge
    exact Bool.noConfusion (h.symm.trans (isFinite_unpack_of_ge (not_lt.1 hge)))
  · intro h
    have hmeans := means_unpack h
    generalize x.toModel.unpack = u, rational x = q at hmeans ⊢
    cases hmeans <;> rfl

/-- Bits of a sign and a magnitude give the key. -/
theorem key_eq {negative : Bool} {n : ℕ} (h : n ≤ infinityBits)
    (hbits : x.toBits.toNat = if negative then signBit + n else n) :
    key x = if negative then -(n : ℤ) else n := by
  change x.toModel.toBits.toBitVec.toNat = _ at hbits
  have hlt : n < signBit := h.trans_lt (by decide)
  rw [key, keyOf, hbits]
  cases negative with
  | false => simp [hlt]
  | true => simp [Nat.mod_eq_of_lt hlt]

theorem key_ofMagnitude (negative : Bool) {n : ℕ} (h : n ≤ infinityBits) :
    key (ofMagnitude negative n) = if negative then -(n : ℤ) else n :=
  key_eq h (toNat_toBits_ofMagnitude negative h)

/-- A ratio becomes the double nearest to it. -/
theorem rounded_ofRatio (num : ℤ) {den : ℕ} (hden : 0 < den) :
    Rounded (num / den) (key (Scalar.ofRatio num den : Float)) := by
  -- magnitudes are read without their sign; a ratio of zero is read as no digits at all
  obtain ⟨n, hn, hreads⟩ : ∃ n, magnitudeOf ⟨num.natAbs, den⟩ = min n infinityBits ∧
      Reads (num.natAbs / den) n := by
    rcases num.natAbs.eq_zero_or_pos with hzero | hpos
    · refine ⟨0, by rw [hzero, Nat.zero_min]; exact if_pos rfl, ?_⟩
      rw [hzero, Nat.cast_zero, zero_div, ← value_zero]
      exact reads_value 0
    · exact reads_magnitudeOf (r := ⟨num.natAbs, den⟩) hpos hden
  have hnearest := Nearest.of_reads hreads (by positivity)
  change Rounded _ (key (ofMagnitude (decide (num < 0)) (magnitudeOf ⟨num.natAbs, den⟩)))
  rw [key_ofMagnitude _ (magnitudeOf_le _), hn]
  rcases lt_or_ge num 0 with hneg | hnonneg
  · have hcast : (num : ℚ) / den = -(num.natAbs / den) := by
      rw [Nat.cast_natAbs, abs_of_neg hneg]
      push_cast
      ring
    rw [decide_eq_true hneg, if_pos rfl, hcast]
    exact ⟨_, hnearest.neg, (clamp_apply .negative n).symm⟩
  · have hcast : (num : ℚ) / den = num.natAbs / den := by
      rw [Nat.cast_natAbs, abs_of_nonneg hnonneg]
    rw [decide_eq_false hnonneg.not_gt, if_neg Bool.false_ne_true, hcast]
    exact ⟨_, hnearest, (clamp_apply .positive n).symm⟩

theorem rounded_ofNat (n : ℕ) : Rounded n (key (Scalar.ofNat n : Float)) := by
  have := rounded_ofRatio n Nat.one_pos
  rwa [Nat.cast_one, div_one] at this

end Operations

/-! ## Numbers that are not finite -/

section Strict

variable {u v : UnpackedFloat}

theorem finite_of_pack (h : (Float.Model.pack u).unpack.isFinite = true) : u.isFinite = true := by
  cases u with
  | infinity s => cases s <;> exact absurd h (by decide)
  | notANumber => exact absurd h (by decide)
  | zero s => rfl
  | finite s m e hm => rfl

theorem finite_of_add (h : (UnpackedFloat.add .binary64 u v).isFinite = true) :
    u.isFinite = true ∧ v.isFinite = true := by
  cases u <;> cases v <;> try first | exact ⟨rfl, rfl⟩ | exact Bool.noConfusion h
  -- what is left is the sum of two infinities, which may cancel out
  rw [UnpackedFloat.add.eq_def] at h
  dsimp only at h
  split at h <;> exact Bool.noConfusion h

theorem finite_of_sub (h : (UnpackedFloat.sub .binary64 u v).isFinite = true) :
    u.isFinite = true ∧ v.isFinite = true := by
  cases u <;> cases v <;> try first | exact ⟨rfl, rfl⟩ | exact Bool.noConfusion h
  rw [UnpackedFloat.sub.eq_def] at h
  dsimp only at h
  split at h <;> exact Bool.noConfusion h

theorem finite_of_mul (h : (UnpackedFloat.mul .binary64 u v).isFinite = true) :
    u.isFinite = true ∧ v.isFinite = true := by
  cases u <;> cases v <;> first | exact ⟨rfl, rfl⟩ | exact Bool.noConfusion h

instance : StrictScalar Float where
  finite_of_add h := finite_of_add (finite_of_pack h)
  finite_of_sub h := finite_of_sub (finite_of_pack h)
  finite_of_mul h := finite_of_mul (finite_of_pack h)

end Strict

/-! ## The order -/

theorem lex_le_iff {k m k' m' : ℕ} (h : Canonical k m) (h' : Canonical k' m') :
    toLex ((k : ℤ) - 1074, (m : ℤ)) ≤ toLex ((k' : ℤ) - 1074, (m' : ℤ)) ↔
      k * hiddenBit + m ≤ k' * hiddenBit + m' := by
  -- canonical mantissas fill their blocks, so a larger exponent always wins
  have below : ∀ {k m k' m' : ℕ}, Canonical k m → Canonical k' m' → k < k' →
      k * hiddenBit + m < k' * hiddenBit + m' := by
    intro k m k' m' h h' hlt
    have hsteps : (k + 1) * hiddenBit ≤ k' * hiddenBit := Nat.mul_le_mul_right _ hlt
    have := h.lt
    have := h'.normal.resolve_left (by omega)
    rw [Nat.succ_mul] at hsteps
    omega
  rw [Prod.Lex.toLex_le_toLex]
  rcases lt_trichotomy k k' with hlt | rfl | hgt
  · have := below h h' hlt
    omega
  · omega
  · have := below h' h hgt
    omega

theorem lex_neg_le_iff (a b c d : ℤ) :
    toLex (-a, -b) ≤ toLex (-c, -d) ↔ toLex (c, d) ≤ toLex (a, b) := by
  rw [Prod.Lex.toLex_le_toLex, Prod.Lex.toLex_le_toLex]
  omega

theorem sign_apply (s : Sign) {n : ℕ} (hn : 0 < n) : (s.apply n).sign = s.apply 1 := by
  cases s <;> simp [Sign.apply, Int.sign_natCast_of_ne_zero hn.ne']

/-- The place of a finite double has its sign, and with it the exponent and the mantissa. -/
theorem placeOf_eq {x : Float} (hx : Finite x) :
    ∃ k m, Canonical k m ∧ (key x).natAbs = k * hiddenBit + m ∧ placeOf x = some (toLex
      ((key x).sign, toLex ((key x).sign * ((k : ℤ) - 1074), (key x).sign * (m : ℤ)))) := by
  obtain ⟨s, hs, hkey⟩ | ⟨s, k, m, hm, hs, h, hkey⟩ := unpack_eq hx
  · refine ⟨0, 0, ⟨by decide, .inl rfl⟩, by rw [key, hkey]; rfl, ?_⟩
    rw [key, hkey]
    exact congrArg place hs
  · have hsign : (key x).sign = s.apply 1 := by
      rw [key, hkey]
      exact sign_apply s (by omega)
    refine ⟨k, m, h, by rw [key, hkey, natAbs_apply], ?_⟩
    rw [hsign, ← apply_eq_mul, ← apply_eq_mul]
    refine (congrArg place hs).trans ?_
    cases s <;> rfl

/-- Finite doubles are ordered as their keys. -/
theorem le_iff_key {x y : Float} (hx : Finite x) (hy : Finite y) : x ≤ y ↔ key x ≤ key y := by
  obtain ⟨k, m, h, hkey, hplace⟩ := placeOf_eq hx
  obtain ⟨k', m', h', hkey', hplace'⟩ := placeOf_eq hy
  have hlex := lex_le_iff h h'
  have hlex' := lex_le_iff h' h
  rw [Binary64.le_iff, hplace, hplace']
  generalize key x = i at *
  generalize key y = j at *
  simp only [Option.mem_some_iff, exists_eq_left']
  rw [Prod.Lex.toLex_le_toLex]
  dsimp only
  -- keys of one sign compare by exponent and mantissa, all others by the sign
  rcases lt_trichotomy i 0 with hi | hi | hi <;> rcases lt_trichotomy j 0 with hj | hj | hj
  all_goals
    simp [Int.sign_eq_neg_one_of_neg, Int.sign_eq_one_of_pos, hi, hj, lex_neg_le_iff, hlex, hlex',
      ← hkey, ← hkey', -neg_sub]
  all_goals omega

/-- Infinities are outermost in the order. -/
theorem exists_placeOf {x : Float} (hx : (key x).natAbs ≤ infinityBits) :
    ∃ c rest, placeOf x = some (toLex (c, rest)) ∧ (key x = infinityBits → c = 2) ∧
      (key x = -infinityBits → c = -2) ∧ (Finite x → -1 ≤ c ∧ c ≤ 1) := by
  unfold Finite
  -- each of the three cases has a place of its own on the line
  rcases (by omega : key x = infinityBits ∨ key x = -infinityBits ∨ (key x).natAbs < infinityBits)
    with htop | hbottom | hfinite
  · have hplace := congrArg place (unpack_of_infinity (s := .positive) htop)
    refine ⟨2, _, hplace, fun _ => rfl, fun h => ?_, fun h => ?_⟩
    · simp [htop, infinityBits] at h
    · simp [htop] at h
  · have hplace := congrArg place (unpack_of_infinity (s := .negative) hbottom)
    refine ⟨-2, _, hplace, fun h => ?_, fun _ => rfl, fun h => ?_⟩
    · simp [hbottom, infinityBits] at h
    · simp [hbottom] at h
  · obtain ⟨k, m, -, -, hplace⟩ := placeOf_eq hfinite
    refine ⟨_, _, hplace, fun h => by omega, fun h => by omega, fun _ => ?_⟩
    have := Int.natAbs_sign (key x)
    split at this <;> omega

theorem natAbs_key_le {x : Float} {a : ℤ ×ₗ ℤ ×ₗ ℤ} (h : placeOf x = some a) :
    (key x).natAbs ≤ infinityBits := by
  by_contra hgt
  have hnone : placeOf x = none := congrArg place (unpack_of_gt (not_le.1 hgt))
  rw [hnone] at h
  cases h

/-- Doubles in order have their keys in order, infinities as well. -/
theorem key_le_of_le {x y : Float} (h : x ≤ y) : key x ≤ key y := by
  obtain ⟨a, ha, b, hb, hab⟩ := Binary64.le_iff.1 h
  have hx := natAbs_key_le ha
  have hy := natAbs_key_le hb
  -- only with an infinity among the two is the place compared, not the key
  by_cases hfinite : Finite x ∧ Finite y
  · exact (le_iff_key hfinite.1 hfinite.2).1 h
  obtain ⟨c, r, hplace, htop, hbottom, hinner⟩ := exists_placeOf hx
  obtain ⟨c', r', hplace', htop', hbottom', hinner'⟩ := exists_placeOf hy
  have hle : c ≤ c' := by
    cases Option.mem_unique ha hplace
    cases Option.mem_unique hb hplace'
    rcases Prod.Lex.toLex_le_toLex.1 hab with hlt | ⟨heq, -⟩
    · exact hlt.le
    · exact heq.le
  unfold Finite at *
  omega

theorem key_lt_of_lt {x y : Float} (hy : Finite y) (h : x < y) : key x < key y := by
  refine (key_le_of_le (LawfulScalar.le_iff.2 (.inl h))).lt_of_ne fun heq => ?_
  have hx : Finite x := by rwa [Finite, heq]
  rcases LawfulScalar.le_iff.1 ((le_iff_key hy hx).2 heq.ge) with hgt | hbeq
  · exact Scalar.not_lt_self x (LawfulScalar.lt_trans h hgt)
  · exact LawfulScalar.not_lt_of_beq (LawfulScalar.beq_symm hbeq) h

/-! ## Rounding to significant digits -/

/-- The decimal with so many digits that is nearest to a double. -/
inductive Shortened (count : ℕ) : ℤ → ℚ → Prop where
  | zero : Shortened count 0 0
  | signed (s : Sign) {n : ℕ} {c : Decimal} (h : Decimal.Rounds count (value n) c) :
    Shortened count (s.apply n) (s.apply 1 * c.value)

theorem Shortened.mono {count : ℕ} (hcount : 1 ≤ count) {k k' : ℤ} {q q' : ℚ}
    (h : Shortened count k q) (h' : Shortened count k' q') (hle : k ≤ k') : q ≤ q' := by
  -- neither side of a shortened number is zero, so the signs decide unless they agree
  have hpos : ∀ {n : ℕ} {c : Decimal}, Decimal.Rounds count (value n) c → 0 < n ∧ 0 < c.value := by
    intro n c h
    refine ⟨?_, (zpow_pos (by norm_num) _).trans_le (h.le_value hcount)⟩
    have hvalue := h.pos
    rw [← value_zero] at hvalue
    exact value_strictMono.lt_iff_lt.1 hvalue
  cases h with
  | zero =>
    cases h' with
    | zero => exact le_rfl
    | signed s' h' =>
      obtain ⟨hn', hc'⟩ := hpos h'
      cases s' <;> simp [Sign.apply] at hle ⊢
      · omega
      · exact hc'.le
  | signed s h =>
    obtain ⟨hn, hc⟩ := hpos h
    cases h' with
    | zero =>
      cases s <;> simp [Sign.apply] at hle ⊢
      · exact hc.le
      · omega
    | signed s' h' =>
      obtain ⟨hn', hc'⟩ := hpos h'
      -- below zero the order of the magnitudes is turned around
      cases s <;> cases s' <;> simp [Sign.apply] at hle ⊢
      · exact h'.mono h hcount (value_strictMono.monotone hle)
      · linarith
      · omega
      · exact h.mono h' hcount (value_strictMono.monotone hle)

theorem exists_classify {x : Float} (hx : Finite x) :
    ∃ negative mantissa exponent, classify x = .finite negative mantissa exponent := by
  have hbits : (key x).natAbs = x.toBits.toNat % signBit := by
    rw [key, keyOf_eq, natAbs_apply]
    rfl
  have hfinite : x.toBits.toNat % signBit < infinityBits := hbits ▸ hx
  unfold classify
  dsimp only
  rw [if_neg hfinite.not_gt, if_neg hfinite.ne]
  split
  · exact ⟨_, _, _, rfl⟩
  · exact ⟨_, _, _, rfl⟩

/-- Rounding gives the double nearest to the nearest decimal. -/
theorem rounded_roundSignificant {count : ℕ} (hcount : 1 ≤ count) {x : Float} (hx : Finite x) :
    ∃ q, Shortened (min count mostDigits) (key x) q ∧
      Rounded q (key (roundSignificant count x)) := by
  obtain ⟨negative, mantissa, exponent, hclass⟩ := exists_classify hx
  rcases eq_or_ne mantissa 0 with hm | hm
  · -- zeros are left alone
    obtain ⟨n, hlt, hbits, hzero, -⟩ := classify_eq_finite hclass
    have hkey : key x = 0 := by
      rw [key_eq hlt.le hbits, hzero hm]
      split <;> rfl
    have hround : roundSignificant count x = x := by
      rw [roundSignificant, hclass]
      exact if_pos hm
    rw [hround, hkey]
    refine ⟨0, .zero, ?_⟩
    rw [← point_zero]
    exact .point (by decide)
  · obtain ⟨n, hn, c, b, hbits, hc, hb, hround⟩ := exists_rounds hcount hclass hm
    rw [key_eq hn.le hbits, hround, key_ofMagnitude _ (Nat.min_le_right _ _)]
    have hc0 : 0 ≤ c.value :=
      (zpow_pos (by norm_num) _).le.trans (hc.le_value (le_min hcount (by decide)))
    have hnearest := Nearest.of_reads hb hc0
    cases negative with
    | true => exact ⟨_, .signed .negative hc, _, hnearest.apply _, (clamp_apply .negative b).symm⟩
    | false => exact ⟨_, .signed .positive hc, _, hnearest.apply _, (clamp_apply .positive b).symm⟩

/-- Rounding to significant digits keeps the order. -/
theorem key_roundSignificant_mono {count : ℕ} (hcount : 1 ≤ count) {x y : Float} (hx : Finite x)
    (hy : Finite y) (h : key x ≤ key y) :
    key (roundSignificant count x) ≤ key (roundSignificant count y) := by
  obtain ⟨q, hq, hround⟩ := rounded_roundSignificant hcount hx
  obtain ⟨q', hq', hround'⟩ := rounded_roundSignificant hcount hy
  exact hround.mono hround' (hq.mono (le_min hcount (by decide)) hq' h)

end Discretization.Binary64
