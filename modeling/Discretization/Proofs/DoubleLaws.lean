import Discretization.Proofs.Doubles
import Discretization.Proofs.Numbers
import Discretization.Scalar.Double
import Mathlib.Data.Prod.Lex

/-!
# Doubles Are Lawful Scalars

Doubles keep the laws that proofs about stored supports rest on: their comparisons order all but the
undefined one, where the two zeros are equal, and rounding to significant digits a second time gives
the same bits again.

Both are facts about bits. The fields of the bits of a double give its magnitude, which is the
natural number of all bits but the sign, and from defined bits a double is made that has just those.
The order is that of the sign, then of the exponent, then of the mantissa.

## Main results

* `Binary64.toBits_ofBits`: defined bits are the bits of their double;
* `Binary64.roundSignificant_roundSignificant`: rounding again changes no bit;
* `LawfulScalar Float`: doubles are lawful scalars.
-/

namespace Discretization.Binary64

open Float.Model Float.Model.UnpackedFloat

/-! ## Bits and their fields -/

section Fields

variable (v : BitVec 64)

theorem toNat_unpackMantissa : (@unpackMantissa .binary64 v).toNat = v.toNat % hiddenBit := by
  simp [unpackMantissa, hiddenBit]

theorem toNat_unpackExponent : (@unpackExponent .binary64 v).toNat =
    v.toNat % signBit / hiddenBit := by
  simp [unpackExponent, Nat.shiftRight_eq_div_pow, signBit, hiddenBit]
  omega

theorem toNat_unpackSign : (@unpackSign .binary64 v).toNat = v.toNat / signBit := by
  have := v.isLt
  unfold unpackSign
  simp [Nat.shiftRight_eq_div_pow, signBit]
  omega

theorem toBitVec_ofBitVec (b : BitVec 1) : (Sign.ofBitVec b).toBitVec = b := by
  revert b; decide

/-- Bits are put together from their fields. -/
theorem packComponents_unpack : packComponents .binary64
    (Sign.ofBitVec (@unpackSign .binary64 v)) (unpackExponent v) (unpackMantissa v) = v := by
  rw [packComponents, toBitVec_ofBitVec]
  apply BitVec.eq_of_toNat_eq
  have hm := (@unpackMantissa .binary64 v).isLt
  have he := (@unpackExponent .binary64 v).isLt
  rw [BitVec.toNat_append, BitVec.toNat_append, ← Nat.shiftLeft_add_eq_or_of_lt hm,
    ← Nat.shiftLeft_add_eq_or_of_lt he, toNat_unpackExponent, toNat_unpackMantissa,
    toNat_unpackSign, Nat.shiftLeft_eq, Nat.shiftLeft_eq]
  have := v.isLt
  simp only [signBit, hiddenBit, Format.binary64]
  omega

theorem pack_subnormal (s : Sign) (m : BitVec 52) (hm : 0 < m.toNat) :
    UnpackedFloat.pack .binary64 (.finite s m.toNat (-1074) hm) =
      packComponents .binary64 s 0 m := by
  have hlog : m.toNat.log2 < 52 := (Nat.log2_lt hm.ne').2 m.isLt
  have hbits : m.toNat.log2 + 1 ≠ Format.binary64.mantissaBits := by
    rw [show Format.binary64.mantissaBits = 53 by decide]
    omega
  unfold UnpackedFloat.pack
  dsimp only
  rw [if_neg (by decide), if_neg hbits, BitVec.ofNat_toNat, BitVec.setWidth_eq]
  rfl

theorem pack_normal (s : Sign) (e : BitVec 11) (m : BitVec 52) (he : e ≠ -1)
    (hm : 0 < (1#1 ++ m).toNat) :
    UnpackedFloat.pack .binary64 (.finite s (1#1 ++ m).toNat (e.toNat - 1075) hm) =
      packComponents .binary64 s e m := by
  -- the leading bit is hidden in the fields and shows in the mantissa
  have hnat : (1#1 ++ m).toNat = 2 ^ 52 + m.toNat := by
    rw [BitVec.toNat_append, ← Nat.shiftLeft_add_eq_or_of_lt m.isLt]
    rfl
  have hlog : (2 ^ 52 + m.toNat).log2 = 52 := (Nat.log2_eq_iff (by omega)).2 ⟨by omega, by omega⟩
  have hmax : e.toNat ≠ 2047 := fun h => he (BitVec.eq_of_toNat_eq h)
  have hbiased :
      ((e.toNat : ℤ) - 1075 + Format.binary64.exponentBias + (52 : ℕ)).toNat = e.toNat := by
    rw [show (Format.binary64.exponentBias : ℤ) = 1023 by decide]
    omega
  have hbits : (2 ^ 52 + m.toNat).log2 + 1 = Format.binary64.mantissaBits := by
    rw [hlog]
    decide
  unfold UnpackedFloat.pack
  dsimp only
  rw [hnat, hbiased, if_neg (by have := e.isLt; omega), if_pos hbits, BitVec.ofNat_toNat,
    BitVec.setWidth_eq]
  congr 1
  apply BitVec.eq_of_toNat_eq
  rw [BitVec.toNat_ofNat]
  omega

/-- Bits of a double come back from what they mean, but for those of an undefined number. -/
theorem pack_unpack (h : UnpackedFloat.unpack .binary64 v ≠ .notANumber) :
    UnpackedFloat.pack .binary64 (UnpackedFloat.unpack .binary64 v) = v := by
  have hv := packComponents_unpack v
  unfold UnpackedFloat.unpack at *
  dsimp only at *
  -- infinities, then zeros and subnormal numbers, then normal ones, as the exponent field says
  by_cases hmax : @unpackExponent .binary64 v = -1#11
  · rw [if_pos hmax] at h ⊢
    by_cases hzero : @unpackMantissa .binary64 v = 0#52
    · rw [if_pos hzero]
      rwa [hmax, hzero] at hv
    · exact absurd (if_neg hzero) h
  · have hbias : (Format.binary64.exponentBias : ℤ) + (52 : ℕ) = 1075 := by decide
    rw [if_neg hmax]
    by_cases hmin : @unpackExponent .binary64 v = 0#11
    · rw [if_pos hmin]
      rw [hmin] at hv
      by_cases hzero : @unpackMantissa .binary64 v = 0#52
      · rw [dif_pos hzero]
        rwa [hzero] at hv
      · rw [dif_neg hzero, hmin, hbias]
        exact (pack_subnormal _ _ _).trans hv
    · rw [if_neg hmin, hbias]
      exact (pack_normal _ _ _ hmax _).trans hv

/-- Up to the magnitude of infinity bits do not mean an undefined number. -/
theorem unpack_ne_notANumber (h : v.toNat % signBit ≤ infinityBits) :
    UnpackedFloat.unpack .binary64 v ≠ .notANumber := by
  have hm := toNat_unpackMantissa v
  have he := toNat_unpackExponent v
  unfold UnpackedFloat.unpack
  dsimp only
  -- a full exponent field is either infinity or undefined, as the mantissa says
  by_cases hmax : @unpackExponent .binary64 v = -1#11
  · rw [if_pos hmax]
    by_cases hzero : @unpackMantissa .binary64 v = 0#52
    · rw [if_pos hzero]
      rintro ⟨⟩
    · refine absurd (BitVec.eq_of_toNat_eq ?_) hzero
      rw [hmax] at he
      have he' : 2047 = v.toNat % signBit / hiddenBit := he
      rw [hm, BitVec.toNat_ofNat]
      simp only [signBit, hiddenBit, infinityBits] at *
      omega
  · rw [if_neg hmax]
    by_cases hmin : @unpackExponent .binary64 v = 0#11
    · rw [if_pos hmin]
      by_cases hzero : @unpackMantissa .binary64 v = 0#52
      · rw [dif_pos hzero]
        rintro ⟨⟩
      · rw [dif_neg hzero]
        rintro ⟨⟩
    · rw [if_neg hmin]
      rintro ⟨⟩

end Fields

/-- Defined bits are the bits of their double. -/
theorem toBits_ofBits {u : UInt64} (h : u.toNat % signBit ≤ infinityBits) :
    (Float.ofBits u).toBits = u :=
  UInt64.toBitVec_inj.1 (pack_unpack u.toBitVec (unpack_ne_notANumber u.toBitVec h))

/-! ## Magnitudes -/

/-- A double made from sign and magnitude has them in its bits. -/
theorem toNat_toBits_ofMagnitude (negative : Bool) {n : ℕ} (h : n ≤ infinityBits) :
    (ofMagnitude negative n).toBits.toNat = if negative then signBit + n else n := by
  have hu : (UInt64.ofNat (if negative then signBit + n else n)).toNat =
      if negative then signBit + n else n := by
    rw [UInt64.toNat_ofNat']
    simp only [signBit, infinityBits] at *
    split <;> omega
  rw [ofMagnitude, toBits_ofBits, hu]
  rw [hu]
  simp only [signBit, infinityBits] at *
  split <;> omega

/-- Bits determine sign and magnitude. -/
theorem signed_injective {negative negative' : Bool} {m n : ℕ} (hm : m ≤ infinityBits)
    (hn : n ≤ infinityBits) (h : (if negative then signBit + m else m) =
      if negative' then signBit + n else n) : negative = negative' ∧ m = n := by
  have hlt : infinityBits < signBit := by decide
  cases negative <;> cases negative'
  case false.false | true.true => exact ⟨rfl, by simpa using h⟩
  case false.true =>
    rw [if_neg Bool.false_ne_true, if_pos rfl] at h
    omega
  case true.false =>
    rw [if_pos rfl, if_neg Bool.false_ne_true] at h
    omega

theorem value_ratio (mantissa : ℕ) (exponent : ℤ) :
    (ratio mantissa exponent).value = mantissa * 2 ^ exponent := by
  rw [ratio, Ratio.value_scaleUp _ (by decide)]
  simp [Ratio.value]

/-- The sign is the highest bit, and the rest is the magnitude. -/
theorem toNat_toBits_eq (x : Float) :
    x.toBits.toNat = if decide (signBit ≤ x.toBits.toNat) then signBit + x.toBits.toNat % signBit
      else x.toBits.toNat % signBit := by
  have hbits : x.toBits.toNat < 2 * signBit := x.toBits.toNat_lt
  by_cases hsign : signBit ≤ x.toBits.toNat
  · rw [decide_eq_true hsign, if_pos rfl, Nat.mod_eq_sub_mod hsign, Nat.mod_eq_of_lt (by omega)]
    omega
  · rw [decide_eq_false hsign, if_neg Bool.false_ne_true, Nat.mod_eq_of_lt (not_le.1 hsign)]

/-- A finite double has bits of a sign and a magnitude, and stands for the rational of that
magnitude. -/
theorem classify_eq_finite {x : Float} {negative : Bool} {mantissa : ℕ} {exponent : ℤ}
    (h : classify x = .finite negative mantissa exponent) : ∃ n < infinityBits,
      x.toBits.toNat = (if negative then signBit + n else n) ∧ (mantissa = 0 → n = 0) ∧
        (ratio mantissa exponent).value = value n := by
  have hsplit := Nat.div_add_mod' (x.toBits.toNat % signBit) hiddenBit
  refine ⟨x.toBits.toNat % signBit, ?_⟩
  unfold classify at h
  dsimp only at h
  split at h
  · cases h
  rename_i hnan
  split at h
  · cases h
  rename_i hinfinite
  have hlt : x.toBits.toNat % signBit < infinityBits := (not_lt.1 hnan).lt_of_ne hinfinite
  -- the field of zero counts in steps of the next one and has no hidden bit
  split at h
  all_goals
    rename_i hfield
    cases h
    refine ⟨hlt, toNat_toBits_eq x, fun hm => ?_, ?_⟩
  · rwa [hfield, Nat.zero_mul, Nat.zero_add, hm, eq_comm] at hsplit
  · rw [value_ratio, value, if_pos hfield]
  · exact absurd hm (Nat.add_pos_left (by decide) _).ne'
  · rw [value_ratio, value, if_neg hfield]

/-! ## Rounding again -/

theorem roundSignificant_eq_self {x : Float} (count : ℕ)
    (h : ∀ negative mantissa exponent, classify x = .finite negative mantissa exponent →
      mantissa = 0) : roundSignificant count x = x := by
  unfold roundSignificant
  split
  · rename_i hx
    rw [if_pos (h _ _ _ hx)]
  · rfl

theorem roundSignificant_of_classify {x : Float} {negative : Bool} {mantissa : ℕ} {exponent : ℤ}
    (count : ℕ) (hx : classify x = .finite negative mantissa exponent) (hm : mantissa ≠ 0) :
    roundSignificant count x = ofMagnitude negative (magnitudeOf
      (Decimal.nearest (ratio mantissa exponent) (min count mostDigits)).toRatio) := by
  unfold roundSignificant
  rw [hx]
  dsimp only
  rw [if_neg hm]
  rfl

/-- A double that is neither zero nor infinite nor undefined is rounded to the double that its
decimal is read as. -/
theorem exists_rounds {x : Float} {count : ℕ} (hcount : 0 < count) {negative : Bool}
    {mantissa : ℕ} {exponent : ℤ} (hx : classify x = .finite negative mantissa exponent)
    (hm : mantissa ≠ 0) : ∃ a < infinityBits, ∃ c b,
      x.toBits.toNat = (if negative then signBit + a else a) ∧
        Decimal.Rounds (min count mostDigits) (value a) c ∧ Reads c.value b ∧
          roundSignificant count x = ofMagnitude negative (min b infinityBits) := by
  obtain ⟨a, hlt, hbits, -, hvalue⟩ := classify_eq_finite hx
  have hpos : 0 < (ratio mantissa exponent).value := by
    rw [value_ratio]
    positivity
  have hrounds := Decimal.rounds_nearest (Ratio.num_pos_of_value_pos hpos)
    (Ratio.den_scaleDown_pos Nat.one_pos (by decide) _) (min count mostDigits)
  have hcount' : 1 ≤ min count mostDigits := le_min hcount (by decide)
  -- the decimal is not zero either, so it can be read
  have hcpos : 0 < (Decimal.nearest (ratio mantissa exponent) (min count mostDigits)).value :=
    (zpow_pos (by norm_num) _).trans_le (hrounds.le_value hcount')
  rw [← Decimal.value_toRatio] at hcpos
  obtain ⟨b, hb, hreads⟩ := reads_magnitudeOf (Ratio.num_pos_of_value_pos hcpos)
    (Decimal.den_toRatio_pos _)
  -- the reader is given the decimal as a ratio of whole numbers
  rw [Decimal.value_toRatio] at hreads
  exact ⟨a, hlt, _, b, hbits, hvalue ▸ hrounds, hreads, by
    rw [roundSignificant_of_classify count hx hm, hb]⟩

/-- Rounding again changes no bit. -/
theorem roundSignificant_roundSignificant {count : ℕ} (hcount : 0 < count) (x : Float) :
    roundSignificant count (roundSignificant count x) = roundSignificant count x := by
  -- zeros, infinities and undefined numbers are left alone
  by_cases hx : ∀ negative mantissa exponent, classify x = .finite negative mantissa exponent →
      mantissa = 0
  · rw [roundSignificant_eq_self count hx, roundSignificant_eq_self count hx]
  push Not at hx
  obtain ⟨negative, mantissa, exponent, hx, hm⟩ := hx
  obtain ⟨a, -, c, b, -, hc, hb, hround⟩ := exists_rounds hcount hx hm
  rw [hround]
  -- rounding may overflow to infinity, which is left alone the second time
  by_cases hy : ∀ negative' mantissa exponent,
      classify (ofMagnitude negative (min b infinityBits)) =
        .finite negative' mantissa exponent → mantissa = 0
  · exact roundSignificant_eq_self count hy
  push Not at hy
  obtain ⟨negative', mantissa', exponent', hy, hm'⟩ := hy
  obtain ⟨n, hn, z, b', hbits, hz, hb', hagain⟩ := exists_rounds hcount hy hm'
  rw [toNat_toBits_ofMagnitude negative (Nat.min_le_right b infinityBits)] at hbits
  obtain ⟨rfl, rfl⟩ := signed_injective (Nat.min_le_right b infinityBits) hn.le hbits
  have hfinite : b < infinityBits := by omega
  rw [Nat.min_eq_left hfinite.le] at hz
  rw [hagain, (reads_again (le_min hcount (by decide)) hc hb hz hfinite).unique hb']

/-! ## The order -/

/-- The place of a number in the order: first infinities, zeros and signs, then the exponent, then
the mantissa, the greater the lower below zero. Both zeros have one place, and an undefined number
has none. -/
def place : UnpackedFloat → Option (ℤ ×ₗ ℤ ×ₗ ℤ)
  | .notANumber => none
  | .infinity .negative => some (toLex (-2, toLex (0, 0)))
  | .finite .negative mantissa exponent _ => some (toLex (-1, toLex (-exponent, -mantissa)))
  | .zero _ => some (toLex (0, toLex (0, 0)))
  | .finite .positive mantissa exponent _ => some (toLex (1, toLex (exponent, mantissa)))
  | .infinity .positive => some (toLex (2, toLex (0, 0)))

theorem place_eq_none_iff {u : UnpackedFloat} : place u = none ↔ u = .notANumber := by
  constructor
  · intro h
    rcases u with ⟨_ | _⟩ | _ | _ | ⟨_ | _, mantissa, exponent, hpos⟩
    case notANumber => rfl
    all_goals cases h
  · rintro rfl
    rfl

theorem compare_natCast (m n : ℕ) : compare (m : ℤ) n = compare m n := by
  simp [compare, compareOfLessAndEq]

theorem compare_neg (m n : ℤ) : compare (-m) (-n) = (compare m n).swap := by
  rw [Int.compare_swap]
  simp only [compare, compareOfLessAndEq, neg_lt_neg_iff, neg_inj, @eq_comm _ m n]

/-- Numbers are compared by their places. -/
theorem compare_eq (u v : UnpackedFloat) : u.compare v =
    (place u).bind fun a => (place v).map fun b => compare a b := by
  -- only two finite numbers of one sign are compared by exponent and mantissa
  rcases u with ⟨_ | _⟩ | _ | _ | ⟨_ | _, m, e, hm⟩ <;>
    rcases v with ⟨_ | _⟩ | _ | _ | ⟨_ | _, m', e', hm'⟩ <;> try rfl
  · change some _ = some ((compare (-e) (-e')).then (compare (-(m : ℤ)) (-m')))
    rw [compare_neg, compare_neg, compare_natCast, Ordering.swap_then]
  · change some _ = some ((compare e e').then (compare (m : ℤ) m'))
    rw [compare_natCast]

/-- The place of a double in the order. -/
def placeOf (x : Float) : Option (ℤ ×ₗ ℤ ×ₗ ℤ) :=
  place x.toModel.unpack

section Order

variable {x y : Float}

theorem compare_toModel (x y : Float) : x.toModel.compare y.toModel =
    (placeOf x).bind fun a => (placeOf y).map fun b => compare a b :=
  compare_eq _ _

theorem lt_iff : x < y ↔ ∃ a ∈ placeOf x, ∃ b ∈ placeOf y, a < b := by
  refine decide_eq_true_iff.trans ?_
  change (x.toModel.compare y.toModel == some .lt) = true ↔ _
  rw [compare_toModel]
  cases placeOf x <;> cases placeOf y <;> simp [compare_lt_iff_lt]

theorem le_iff : x ≤ y ↔ ∃ a ∈ placeOf x, ∃ b ∈ placeOf y, a ≤ b := by
  refine decide_eq_true_iff.trans ?_
  change (x.toModel.compare y.toModel).any (·.isLE) = true ↔ _
  rw [compare_toModel]
  cases placeOf x <;> cases placeOf y <;> simp [Ordering.isLE_iff_ne_gt, compare_le_iff_le]

theorem beq_iff : (x == y) = true ↔ ∃ a ∈ placeOf x, a ∈ placeOf y := by
  change (x.toModel.compare y.toModel == some .eq) = true ↔ _
  rw [compare_toModel]
  rcases placeOf x with _ | a <;> rcases placeOf y with _ | b
  case some.some => simpa [compare_eq_iff_eq] using eq_comm
  all_goals simp

/-- A double made from sign and magnitude has a place. -/
theorem placeOf_ofMagnitude (negative : Bool) {n : ℕ} (h : n ≤ infinityBits) :
    ∃ a, a ∈ placeOf (ofMagnitude negative n) := by
  refine Option.ne_none_iff_exists'.1 fun hnone => ?_
  refine unpack_ne_notANumber (ofMagnitude negative n).toBits.toBitVec ?_
    (place_eq_none_iff.1 hnone)
  have hbits := toNat_toBits_ofMagnitude negative h
  rw [UInt64.toNat_toBitVec, hbits]
  simp only [signBit, infinityBits] at *
  split <;> omega

end Order

end Discretization.Binary64

namespace Discretization

open Binary64

/-- Doubles are lawful. -/
instance : LawfulScalar Float where
  beq_symm h := by
    obtain ⟨a, hx, hy⟩ := beq_iff.1 h
    exact beq_iff.2 ⟨a, hy, hx⟩
  beq_trans h h' := by
    obtain ⟨a, hx, hy⟩ := beq_iff.1 h
    obtain ⟨b, hy', hz⟩ := beq_iff.1 h'
    cases Option.mem_unique hy hy'
    exact beq_iff.2 ⟨a, hx, hz⟩
  lt_trans h h' := by
    obtain ⟨a, hx, b, hy, hab⟩ := lt_iff.1 h
    obtain ⟨b', hy', c, hz, hbc⟩ := lt_iff.1 h'
    cases Option.mem_unique hy hy'
    exact lt_iff.2 ⟨a, hx, c, hz, hab.trans hbc⟩
  lt_of_beq_of_lt h h' := by
    obtain ⟨a, hx, hy⟩ := beq_iff.1 h
    obtain ⟨b, hy', c, hz, hbc⟩ := lt_iff.1 h'
    cases Option.mem_unique hy hy'
    exact lt_iff.2 ⟨a, hx, c, hz, hbc⟩
  lt_of_lt_of_beq h h' := by
    obtain ⟨a, hx, b, hy, hab⟩ := lt_iff.1 h
    obtain ⟨b', hy', hz⟩ := beq_iff.1 h'
    cases Option.mem_unique hy hy'
    exact lt_iff.2 ⟨a, hx, b, hz, hab⟩
  not_lt_of_beq h h' := by
    obtain ⟨a, hx, hy⟩ := beq_iff.1 h
    obtain ⟨b, hx', c, hy', hbc⟩ := lt_iff.1 h'
    cases Option.mem_unique hx hx'
    cases Option.mem_unique hy hy'
    exact lt_irrefl _ hbc
  lt_or_beq_or_lt hx hy := by
    obtain ⟨a, hx, -⟩ := beq_iff.1 hx
    obtain ⟨b, hy, -⟩ := beq_iff.1 hy
    rcases lt_trichotomy a b with hlt | rfl | hgt
    · exact .inl (lt_iff.2 ⟨a, hx, b, hy, hlt⟩)
    · exact .inr (.inl (beq_iff.2 ⟨a, hx, hy⟩))
    · exact .inr (.inr (lt_iff.2 ⟨b, hy, a, hx, hgt⟩))
  defined_of_lt h := by
    obtain ⟨a, hx, -⟩ := lt_iff.1 h
    exact beq_iff.2 ⟨a, hx, hx⟩
  defined_of_gt h := by
    obtain ⟨-, -, b, hy, -⟩ := lt_iff.1 h
    exact beq_iff.2 ⟨b, hy, hy⟩
  le_iff := by
    intro x y
    rw [Binary64.le_iff, lt_iff, beq_iff]
    constructor
    · rintro ⟨a, hx, b, hy, hab⟩
      rcases hab.lt_or_eq with hlt | rfl
      · exact .inl ⟨a, hx, b, hy, hlt⟩
      · exact .inr ⟨a, hx, hy⟩
    · rintro (⟨a, hx, b, hy, hab⟩ | ⟨a, hx, hy⟩)
      · exact ⟨a, hx, b, hy, hab.le⟩
      · exact ⟨a, hx, a, hy, le_rfl⟩
  defined_roundSignificant {x} digits hx := by
    by_cases hzero : ∀ negative mantissa exponent, classify x = .finite negative mantissa exponent →
        mantissa = 0
    · rwa [show Scalar.roundSignificant digits x = x from roundSignificant_eq_self digits hzero]
    push Not at hzero
    obtain ⟨negative, mantissa, exponent, hx, hm⟩ := hzero
    obtain ⟨a, ha⟩ := placeOf_ofMagnitude negative (magnitudeOf_le
      (Decimal.nearest (ratio mantissa exponent) (min digits mostDigits)).toRatio)
    rw [← roundSignificant_of_classify digits hx hm] at ha
    exact beq_iff.2 ⟨a, ha, ha⟩
  roundSignificant_idem x hdigits := roundSignificant_roundSignificant hdigits x

end Discretization
