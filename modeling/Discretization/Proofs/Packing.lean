import Discretization.Proofs.DoubleLaws
import Discretization.Proofs.Nearest

/-!
# Packing Doubles

The magnitude of a double, with its sign, is an integer: its key. A finite double means the mantissa
and the exponent that its key splits into, and packing a mantissa and an exponent makes the double
of that key.

A number that comes out of a computation has a longer mantissa. It is shifted until it fits, and the
bits that fall off are kept as two: the first of them, and whether any other is set. With these it
is rounded to the nearest double, ties to even.

## Main definitions

* `Binary64.key`: the signed magnitude of a double;
* `Binary64.Canonical`: steps and mantissa of a double;
* `Binary64.Extends`: a rational lies where a mantissa and the bits after it say.

## Main results

* `Binary64.keyOf_pack`, `Binary64.unpack_eq`: keys are split and put together;
* `Binary64.keyOf_roundWithAccuracy`: rounding gives the nearest magnitude.
-/

namespace Discretization.Binary64

open Float.Model Float.Model.UnpackedFloat

/-! ## Keys -/

/-- The magnitude of bits, below zero for those with the sign. -/
def keyOf (v : BitVec 64) : ℤ :=
  if v.toNat < signBit then v.toNat else -(v.toNat % signBit : ℕ)

/-- The signed magnitude of a double. -/
def key (x : Float) : ℤ :=
  keyOf x.toModel.toBits.toBitVec

/-- A double that is neither infinite nor undefined. -/
def Finite (x : Float) : Prop :=
  (key x).natAbs < infinityBits

/-- The rational that a finite double stands for. -/
def rational (x : Float) : ℚ :=
  point (key x)

/-- Steps and mantissa of a double. -/
structure Canonical (k m : ℕ) : Prop where
  lt : m < 2 * hiddenBit
  normal : k = 0 ∨ hiddenBit ≤ m

section Fields

variable (s : Sign)

theorem keyOf_packComponents (e : BitVec 11) (m : BitVec 52) :
    keyOf (packComponents .binary64 s e m) = s.apply (e.toNat * hiddenBit + m.toNat : ℕ) := by
  have hm := m.isLt
  have he := e.isLt
  -- the three fields do not overlap, so appending them adds them up
  have hnat : (packComponents .binary64 s e m).toNat =
      s.toBitVec.toNat * signBit + (e.toNat * hiddenBit + m.toNat) := by
    rw [packComponents, BitVec.toNat_append, BitVec.toNat_append,
      ← Nat.shiftLeft_add_eq_or_of_lt hm, ← Nat.shiftLeft_add_eq_or_of_lt he, Nat.shiftLeft_eq,
      Nat.shiftLeft_eq]
    simp only [signBit, hiddenBit]
    omega
  have hlt : e.toNat * hiddenBit + m.toNat < signBit := by
    simp only [signBit, hiddenBit]
    omega
  rw [keyOf, hnat]
  cases s with
  | positive => simp [Sign.toBitVec, Sign.apply, hlt]
  | negative => simp [Sign.toBitVec, Sign.apply, Nat.mod_eq_of_lt hlt]

theorem exponentBias_binary64 : (Format.binary64.exponentBias : ℤ) = 1023 := by
  decide

/-- Packing keeps sign and magnitude, up to the magnitude of infinity. -/
theorem keyOf_pack {k m : ℕ} (h : Canonical k m) (hm : 0 < m) :
    keyOf (UnpackedFloat.pack .binary64 (.finite s m (k - 1074) hm)) =
      s.apply (min (k * hiddenBit + m) infinityBits : ℕ) := by
  have hbiased : ((k : ℤ) - 1074 + Format.binary64.exponentBias + (52 : ℕ)).toNat = k + 1 := by
    rw [exponentBias_binary64]
    omega
  obtain ⟨hlt, hnormal⟩ := h
  unfold UnpackedFloat.pack
  dsimp only
  rw [hbiased, show Format.binary64.mantissaBits = 53 by decide]
  -- the exponent is too large, or the mantissa fills its field, or the double is subnormal
  split
  · rename_i hlarge
    have hlarge : 2 ^ 11 ≤ k + 1 + 1 := hlarge
    refine (keyOf_packComponents s _ _).trans (congrArg (fun n : ℕ => s.apply n) ?_)
    change 2047 * hiddenBit + 0 = _
    simp only [hiddenBit, infinityBits] at *
    omega
  rename_i hsmall
  have hsmall : ¬ 2 ^ 11 ≤ k + 1 + 1 := hsmall
  split
  · rename_i hbits
    obtain ⟨hlow, -⟩ := (Nat.log2_eq_iff hm.ne').1 (by omega : m.log2 = 52)
    refine (keyOf_packComponents s _ _).trans (congrArg (fun n : ℕ => s.apply n) ?_)
    change (k + 1) % 2 ^ 11 * hiddenBit + m % 2 ^ 52 = _
    rw [Nat.mod_eq_of_lt (by omega : k + 1 < 2 ^ 11)]
    simp only [hiddenBit, infinityBits] at *
    omega
  · rename_i hbits
    have hhigh : m < 2 ^ 52 := by
      by_contra hge
      exact hbits (congrArg (· + 1) ((Nat.log2_eq_iff hm.ne').2 ⟨not_lt.1 hge, hlt⟩))
    refine (keyOf_packComponents s _ _).trans (congrArg (fun n : ℕ => s.apply n) ?_)
    change 0 * hiddenBit + m % 2 ^ 52 = _
    rw [Nat.mod_eq_of_lt hhigh]
    simp only [hiddenBit, infinityBits] at *
    omega

end Fields

/-! ## Unpacking -/

theorem ofBitVec_of_lt {v : BitVec 64} (h : v.toNat < signBit) :
    Sign.ofBitVec (@unpackSign .binary64 v) = .positive := by
  have hs := toNat_unpackSign v
  rw [Nat.div_eq_of_lt h] at hs
  exact if_pos (BitVec.eq_of_toNat_eq hs)

theorem ofBitVec_of_ge {v : BitVec 64} (h : signBit ≤ v.toNat) :
    Sign.ofBitVec (@unpackSign .binary64 v) = .negative := by
  have hs := toNat_unpackSign v
  refine if_neg fun hzero => ?_
  rw [hzero] at hs
  have : 0 < v.toNat / signBit := Nat.div_pos h (by decide)
  simp at hs
  omega

theorem keyOf_eq (v : BitVec 64) :
    keyOf v = (Sign.ofBitVec (@unpackSign .binary64 v)).apply (v.toNat % signBit : ℕ) := by
  rcases lt_or_ge v.toNat signBit with h | h
  · rw [keyOf, if_pos h, ofBitVec_of_lt h, Nat.mod_eq_of_lt h]
    rfl
  · rw [keyOf, if_neg h.not_gt, ofBitVec_of_ge h]
    rfl

theorem natAbs_apply (s : Sign) (n : ℕ) : (s.apply n).natAbs = n := by
  cases s <;> simp [Sign.apply]

/-- What finite bits mean. -/
theorem unpack_eq {v : BitVec 64} (h : (keyOf v).natAbs < infinityBits) :
    (∃ s, UnpackedFloat.unpack .binary64 v = .zero s ∧ keyOf v = 0) ∨
      ∃ (s : Sign) (k m : ℕ) (hm : 0 < m),
        UnpackedFloat.unpack .binary64 v = .finite s m (k - 1074) hm ∧ Canonical k m ∧
          keyOf v = s.apply (k * hiddenBit + m : ℕ) := by
  have hmantissa := toNat_unpackMantissa v
  have hexponent := toNat_unpackExponent v
  have hkey := keyOf_eq v
  rw [hkey, natAbs_apply] at h
  have hbias : (Format.binary64.exponentBias : ℤ) + (52 : ℕ) = 1075 := by decide
  unfold UnpackedFloat.unpack
  dsimp only
  rw [hbias]
  -- the greatest exponent is that of infinity, and the smallest that of subnormal doubles
  by_cases hmax : @unpackExponent .binary64 v = -1#11
  · rw [hmax] at hexponent
    have hexponent : 2047 = v.toNat % signBit / hiddenBit := hexponent
    simp only [hiddenBit, infinityBits] at h hexponent
    omega
  rw [if_neg hmax]
  by_cases hmin : @unpackExponent .binary64 v = 0#11
  · rw [hmin] at hexponent
    have hexponent : 0 = v.toNat % signBit / hiddenBit := hexponent
    have hmagnitude : v.toNat % signBit = (@unpackMantissa .binary64 v).toNat := by
      simp only [hiddenBit, signBit] at *
      omega
    rw [if_pos hmin]
    by_cases hzero : @unpackMantissa .binary64 v = 0#52
    · left
      rw [hmagnitude, hzero] at hkey
      refine ⟨_, dif_pos hzero, hkey.trans ?_⟩
      cases Sign.ofBitVec (@unpackSign .binary64 v) <;> rfl
    · right
      have hpos : 0 < (@unpackMantissa .binary64 v).toNat :=
        Nat.pos_of_ne_zero fun h0 => hzero (BitVec.eq_of_toNat_eq h0)
      have hlt := (@unpackMantissa .binary64 v).isLt
      rw [dif_neg hzero]
      refine ⟨Sign.ofBitVec (@unpackSign .binary64 v), 0, _, hpos, ?_, ⟨?_, .inl rfl⟩, ?_⟩
      · rw [hmin]
        rfl
      · simp only [hiddenBit] at *
        omega
      · rw [hkey, hmagnitude, Nat.zero_mul, Nat.zero_add]
  · right
    -- a normal double, whose mantissa has a leading bit that is not stored
    have hfield : (@unpackExponent .binary64 v).toNat ≠ 0 := fun h0 =>
      hmin (BitVec.eq_of_toNat_eq h0)
    obtain ⟨k, hk⟩ := Nat.exists_eq_succ_of_ne_zero hfield
    have hnat : (1#1 ++ @unpackMantissa .binary64 v).toNat = hiddenBit + v.toNat % hiddenBit := by
      rw [BitVec.toNat_append, ← Nat.shiftLeft_add_eq_or_of_lt (@unpackMantissa .binary64 v).isLt,
        hmantissa]
      rfl
    have hpos : 0 < (1#1 ++ @unpackMantissa .binary64 v).toNat := by
      rw [hnat]
      exact Nat.add_pos_left (by decide) _
    have hlt : v.toNat % hiddenBit < hiddenBit := Nat.mod_lt _ (by decide)
    rw [if_neg hmin]
    refine ⟨Sign.ofBitVec (@unpackSign .binary64 v), k, _, hpos, ?_, ⟨?_, .inr ?_⟩, ?_⟩
    · have hexp : ((k.succ : ℕ) : ℤ) - 1075 = k - 1074 := by
        push_cast
        ring
      rw [hk, hexp]
    · omega
    · omega
    · rw [hkey, hnat]
      congr 2
      simp only [hiddenBit, signBit] at *
      omega

/-- From the bits of infinity on the exponent is the greatest one. -/
theorem unpackExponent_of_ge {v : BitVec 64} (h : infinityBits ≤ (keyOf v).natAbs) :
    @unpackExponent .binary64 v = -1#11 := by
  rw [keyOf_eq, natAbs_apply] at h
  apply BitVec.eq_of_toNat_eq
  rw [toNat_unpackExponent]
  change _ = 2047
  have : v.toNat % signBit < signBit := Nat.mod_lt _ (by decide)
  simp only [hiddenBit, signBit, infinityBits] at *
  omega

theorem isFinite_unpack_of_ge {v : BitVec 64} (h : infinityBits ≤ (keyOf v).natAbs) :
    (UnpackedFloat.unpack .binary64 v).isFinite = false := by
  unfold UnpackedFloat.unpack
  dsimp only
  rw [if_pos (unpackExponent_of_ge h)]
  split <;> rfl

theorem unpack_of_infinity {v : BitVec 64} {s : Sign} (h : keyOf v = s.apply infinityBits) :
    UnpackedFloat.unpack .binary64 v = .infinity s := by
  have habs : (keyOf v).natAbs = infinityBits := by rw [h, natAbs_apply]
  have hmantissa := toNat_unpackMantissa v
  have hkey := keyOf_eq v
  rw [hkey, natAbs_apply] at habs
  -- nothing is left for the mantissa once the exponent field is full
  have hzero : @unpackMantissa .binary64 v = 0#52 := by
    apply BitVec.eq_of_toNat_eq
    rw [hmantissa]
    change _ = 0
    simp only [hiddenBit, signBit, infinityBits] at *
    omega
  -- infinity is not zero, so its sign can be read off the key
  have hsign : Sign.ofBitVec (@unpackSign .binary64 v) = s := by
    rw [hkey, habs] at h
    generalize Sign.ofBitVec (@unpackSign .binary64 v) = s' at h
    cases s <;> cases s' <;> first | rfl | exact absurd h (by decide)
  unfold UnpackedFloat.unpack
  dsimp only
  rw [if_pos (unpackExponent_of_ge (by rw [hkey, natAbs_apply, habs])), if_pos hzero, hsign]

theorem unpack_of_gt {v : BitVec 64} (h : infinityBits < (keyOf v).natAbs) :
    UnpackedFloat.unpack .binary64 v = .notANumber := by
  have hmantissa := toNat_unpackMantissa v
  have hexponent := unpackExponent_of_ge h.le
  have hzero : @unpackMantissa .binary64 v ≠ 0#52 := by
    rw [keyOf_eq, natAbs_apply] at h
    intro hzero
    rw [hzero] at hmantissa
    have hmantissa : 0 = v.toNat % hiddenBit := hmantissa
    have : v.toNat % signBit < signBit := Nat.mod_lt _ (by decide)
    simp only [hiddenBit, signBit, infinityBits] at *
    omega
  unfold UnpackedFloat.unpack
  dsimp only
  rw [if_pos hexponent, if_neg hzero]

/-! ## Rounding -/

/-- A rational lies where a mantissa and the bits after it say: the first bit counts a half, and the
second tells whether anything is left. -/
structure Extends (x : ℚ) (em : ExtendedMantissa) : Prop where
  low : (em.mantissa : ℚ) + (em.roundBit.toNat : ℚ) / 2 ≤ x
  high : x < (em.mantissa : ℚ) + (em.roundBit.toNat : ℚ) / 2 + 1 / 2
  rest : x = (em.mantissa : ℚ) + (em.roundBit.toNat : ℚ) / 2 ↔ em.stickyBit = false

namespace Extends

variable {x : ℚ} {em : ExtendedMantissa}

/-- The last bit of the mantissa becomes the first bit after it. -/
theorem shiftRightOne (h : Extends x em) : Extends (x / 2) em.shiftRightOne := by
  obtain ⟨m, roundBit, stickyBit⟩ := em
  obtain ⟨low, high, rest⟩ := h
  -- the bit that is shifted out was worth half a unit of the new mantissa
  have hsplit : (m : ℚ) = 2 * (m / 2 : ℕ) + (m % 2 : ℕ) := by
    exact_mod_cast (Nat.div_add_mod m 2).symm
  have hlast : ((m % 2 != 0).toNat : ℚ) = (m % 2 : ℕ) := by
    rcases Nat.mod_two_eq_zero_or_one m with h | h <;> simp [h]
  have hround : (0 : ℚ) ≤ roundBit.toNat ∧ (roundBit.toNat : ℚ) ≤ 1 :=
    ⟨Nat.cast_nonneg _, by exact_mod_cast roundBit.toNat_le⟩
  dsimp only at low high rest
  rw [hsplit] at low high rest
  unfold ExtendedMantissa.shiftRightOne
  refine ⟨?_, ?_, ?_⟩
  all_goals
    dsimp only
    rw [hlast]
  · linarith
  · linarith
  · rw [Bool.or_eq_false_iff, ← rest]
    -- a remainder that was exactly half stays visible in the sticky bit
    cases roundBit with
    | false =>
      simp only [Bool.toNat_false, Nat.cast_zero, true_and]
      constructor <;> intro h <;> linarith
    | true =>
      simp only [Bool.toNat_true, Nat.cast_one, Bool.true_eq_false, false_and, iff_false] at *
      intro h
      linarith

theorem shift (h : Extends x em) (n : ℕ) : Extends (x / 2 ^ n) (em >>> n) := by
  induction n with
  | zero =>
    rw [pow_zero, div_one]
    exact h
  | succ n ih =>
    rw [pow_succ, ← div_div]
    exact ih.shiftRightOne

/-- Rounding the mantissa gives the nearest natural number. -/
theorem nearestEven (h : Extends x em) : NearestEven x em.roundedMantissa := by
  obtain ⟨m, roundBit, stickyBit⟩ := em
  obtain ⟨low, high, rest⟩ := h
  -- the two bits say on which side of the middle the rational lies
  cases roundBit <;> cases stickyBit
  all_goals
    simp only [Bool.toNat_false, Bool.toNat_true, Nat.cast_zero, Nat.cast_one, zero_div, add_zero,
      iff_true, Bool.true_eq_false, iff_false] at low high rest
  case false.false =>
    change NearestEven x m
    refine ⟨?_, ?_, fun h => ?_, fun h => ?_⟩ <;> linarith
  case false.true =>
    change NearestEven x m
    refine ⟨?_, ?_, fun h => ?_, fun h => ?_⟩ <;> linarith
  case true.false =>
    -- halfway, where the last bit of the mantissa decides
    change NearestEven x (m + m % 2)
    rcases Nat.even_or_odd m with heven | hodd
    · rw [Nat.even_iff.1 heven, add_zero]
      exact ⟨by linarith, by linarith, fun h => by linarith, fun _ => heven⟩
    · rw [Nat.odd_iff.1 hodd]
      have hcast : ((m + 1 : ℕ) : ℚ) = m + 1 := Nat.cast_succ m
      refine ⟨?_, ?_, fun _ => hodd.add_one, fun h => ?_⟩ <;> linarith
  case true.true =>
    change NearestEven x (m + 1)
    have hcast : ((m + 1 : ℕ) : ℚ) = m + 1 := Nat.cast_succ m
    have hne : (m : ℚ) + 1 / 2 < x := low.lt_of_ne (Ne.symm rest)
    refine ⟨?_, ?_, fun h => ?_, fun h => ?_⟩ <;> linarith

end Extends

/-- Doubles have mantissas of 53 bits, and none counts less than the smallest double. -/
theorem shiftToTargetExponent_eq {m : ℕ} {e : ℤ} {t : ℕ} (accuracy : Accuracy)
    (h : max ((m.log2 : ℤ) + 1 + e - 53) (-1074) - e = t) :
    shiftToTargetExponent .binary64 m e accuracy =
      (ExtendedMantissa.ofMantissaAndAccuracy m accuracy >>> t, e + t) := by
  have htarget : Format.binary64.targetExponent (totalExponent m e) - e = t := h
  simp only [shiftToTargetExponent, shiftToExponent, htarget, Int.toNat_natCast]

/-- The mantissa of a double has its exponent already. -/
theorem shiftToTargetExponent_of_canonical {k m : ℕ} (h : Canonical k m) :
    shiftToTargetExponent .binary64 m (k - 1074) .exact = (⟨m, false, false⟩, (k : ℤ) - 1074) := by
  obtain ⟨hlt, hnormal⟩ := h
  have hlog : m.log2 ≤ 52 := by
    rcases m.eq_zero_or_pos with rfl | hpos
    · decide
    · exact Nat.le_of_lt_succ ((Nat.log2_lt hpos.ne').2 hlt)
  have hnone : max ((m.log2 : ℤ) + 1 + (k - 1074) - 53) (-1074) - (k - 1074) = (0 : ℕ) := by
    rcases hnormal with rfl | hge
    · omega
    · have hlow : 52 ≤ m.log2 :=
        (Nat.le_log2 (Nat.ne_of_gt (Nat.lt_of_lt_of_le (by decide) hge))).2 hge
      omega
  rw [shiftToTargetExponent_eq _ hnone, Nat.cast_zero, add_zero]
  rfl

/-- A mantissa that carries is shifted once more. -/
theorem shiftToTargetExponent_carry (k : ℕ) :
    shiftToTargetExponent .binary64 (2 * hiddenBit) (k - 1074) .exact =
      (⟨hiddenBit, false, false⟩, ((k + 1 : ℕ) : ℤ) - 1074) := by
  have hlog : (2 * hiddenBit).log2 = 53 := by decide
  have hone : max (((2 * hiddenBit).log2 : ℤ) + 1 + (k - 1074) - 53) (-1074) - (k - 1074) =
      (1 : ℕ) := by
    rw [hlog]
    omega
  rw [shiftToTargetExponent_eq _ hone]
  exact congrArg (Prod.mk _) (by push_cast; ring)

/-- What comes after a mantissa counts less than one. -/
theorem Extends.bounds {m : ℕ} {accuracy : Accuracy} {x : ℚ}
    (h : Extends x (.ofMantissaAndAccuracy m accuracy)) : (m : ℚ) ≤ x ∧ x < m + 1 := by
  obtain ⟨low, high, rest⟩ := h
  rcases accuracy with _ | _ | _ | _ <;>
    simp only [ExtendedMantissa.ofMantissaAndAccuracy, Bool.toNat_false, Bool.toNat_true,
      Nat.cast_zero, Nat.cast_one] at low high <;> constructor <;> linarith

/-- The bits of a number enclose it between powers of two. -/
theorem Extends.enclosed {m : ℕ} {accuracy : Accuracy} {x : ℚ}
    (h : Extends x (.ofMantissaAndAccuracy m accuracy)) :
    (m ≠ 0 → (2 : ℚ) ^ m.log2 ≤ x) ∧ x < 2 ^ (m.log2 + 1) := by
  constructor
  · intro hm
    refine le_trans ?_ h.bounds.1
    exact_mod_cast Nat.log2_self_le hm
  · refine h.bounds.2.trans_le ?_
    exact_mod_cast Nat.lt_log2_self (n := m)

theorem keyOf_pack_zero (s : Sign) : keyOf (UnpackedFloat.pack .binary64 (.zero s)) = 0 := by
  cases s <;> decide

/-- A number that is given with enough bits is rounded to the nearest magnitude, up to that of
infinity. -/
theorem keyOf_roundWithAccuracy (s : Sign) {m : ℕ} {e : ℤ} {accuracy : Accuracy} {x : ℚ}
    (hx : Extends (x / 2 ^ e) (.ofMantissaAndAccuracy m accuracy))
    (he : e ≤ max (m.log2 + 1 + e - 53) (-1074)) :
    ∃ n, Reads x n ∧
      keyOf (UnpackedFloat.pack .binary64 (roundWithAccuracy .binary64 s m e accuracy)) =
        s.apply (min n infinityBits : ℕ) := by
  obtain ⟨k, hk⟩ : ∃ k : ℕ, max ((m.log2 : ℤ) + 1 + e - 53) (-1074) = k - 1074 :=
    ⟨(max ((m.log2 : ℤ) + 1 + e - 53) (-1074) + 1074).toNat, by omega⟩
  obtain ⟨t, ht⟩ : ∃ t : ℕ, (k : ℤ) - 1074 - e = t := ⟨((k : ℤ) - 1074 - e).toNat, by omega⟩
  have htarget : e + t = (k : ℤ) - 1074 := by omega
  have hp : (0 : ℚ) < 2 ^ e := zpow_pos (by norm_num) _
  obtain ⟨hlog, hlog'⟩ := hx.enclosed
  rw [le_div_iff₀ hp, ← zpow_natCast, ← zpow_add₀ two_ne_zero] at hlog
  rw [div_lt_iff₀ hp, ← zpow_natCast, ← zpow_add₀ two_ne_zero] at hlog'
  have hlow : k = 0 ∨ hiddenBit * 2 ^ (k - 1074 : ℤ) ≤ x := by
    rcases eq_or_ne k 0 with hzero | hpos
    · exact .inl hzero
    have hm : m ≠ 0 := by
      rintro rfl
      have : Nat.log2 0 = 0 := by decide
      omega
    rw [hiddenBit_mul, show (52 : ℤ) + (k - 1074) = m.log2 + e by omega]
    exact .inr (hlog hm)
  have hhigh : x < (2 * hiddenBit : ℕ) * 2 ^ (k - 1074 : ℤ) := by
    rw [two_mul_hiddenBit_mul]
    exact hlog'.trans_le (zpow_le_zpow_right₀ (by norm_num) (by push_cast; omega))
  -- after the bulk of the shifting the mantissa is rounded
  have hshifted := hx.shift t
  rw [div_div, ← zpow_natCast, ← zpow_add₀ two_ne_zero, htarget] at hshifted
  have hnearest := hshifted.nearestEven
  have hp' : (0 : ℚ) < 2 ^ (k - 1074 : ℤ) := zpow_pos (by norm_num) _
  refine ⟨_, reads_of_nearestEven hnearest hlow hhigh, ?_⟩
  have hshift : max ((m.log2 : ℤ) + 1 + e - 53) (-1074) - e = t := by rw [hk, ht]
  rw [roundWithAccuracy, shiftToTargetExponent_eq accuracy hshift, htarget]
  dsimp only
  generalize (ExtendedMantissa.ofMantissaAndAccuracy m accuracy >>> t).roundedMantissa = M at *
  -- rounding keeps the mantissa between the bounds of its binade, both included
  have hle : M ≤ 2 * hiddenBit := by
    have := hnearest.ge_of_ge (k := (2 * hiddenBit : ℕ))
      ((div_le_iff₀ hp').2 (by exact_mod_cast hhigh.le))
    omega
  have hnormal : k = 0 ∨ hiddenBit ≤ M := hlow.imp_right fun hlow => by
    have := hnearest.le_of_le (k := (hiddenBit : ℕ)) ((le_div_iff₀ hp').2 (by exact_mod_cast hlow))
    omega
  rcases hle.lt_or_eq with hlt | rfl
  · rw [shiftToTargetExponent_of_canonical ⟨hlt, hnormal⟩]
    dsimp only
    by_cases hzero : M = 0
    · obtain rfl : k = 0 := hnormal.resolve_right (by
        rw [hzero]
        decide)
      rw [dif_pos hzero, keyOf_pack_zero, hzero]
      cases s <;> rfl
    · rw [dif_neg hzero]
      exact keyOf_pack s ⟨hlt, hnormal⟩ _
  · rw [shiftToTargetExponent_carry]
    dsimp only
    rw [dif_neg (by decide), keyOf_pack s ⟨by decide, .inr le_rfl⟩]
    have hcarry : (k + 1) * hiddenBit + hiddenBit = k * hiddenBit + 2 * hiddenBit := by ring
    rw [hcarry]

end Discretization.Binary64
