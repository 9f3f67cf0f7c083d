import Discretization.Proofs.Sampling

/-!
# Rounding to Significant Digits

Rounding to significant digits is a projection of the doubles that keeps their order and commutes
with the minus sign. The minus sign changes the bit of the sign and nothing else, and rounding looks
at the magnitude only, so that both sides of zero are treated alike. Infinities are left alone and
are outermost in the order, so it is kept also where rounding overflows to one of them.

## Main results

* `Binary64.neg_ofMagnitude`: the negative of a double has the other sign and the same magnitude;
* `Binary64.le_iff_key_of_defined`: doubles are ordered as their keys, infinities as well;
* `rounds_of_le`: rounding again changes nothing, the order is kept, and signs are kept apart.
-/

namespace Discretization.Binary64

open Float.Model Float.Model.UnpackedFloat

/-! ## The minus sign -/

/-- Bits that differ in the sign only mean a number and its negative. -/
theorem unpack_of_flipped {v v' : BitVec 64}
    (h : v'.toNat = (v.toNat + signBit) % (2 * signBit)) :
    UnpackedFloat.unpack .binary64 v' = (UnpackedFloat.unpack .binary64 v).neg := by
  have hv : v.toNat < 2 * signBit := v.isLt
  -- mantissa and exponent lie below the bit of the sign and are read modulo a divisor of it
  have hm : @unpackMantissa .binary64 v' = @unpackMantissa .binary64 v := by
    apply BitVec.eq_of_toNat_eq
    rw [toNat_unpackMantissa, toNat_unpackMantissa, h]
    simp only [signBit, hiddenBit] at *
    omega
  have he : @unpackExponent .binary64 v' = @unpackExponent .binary64 v := by
    apply BitVec.eq_of_toNat_eq
    rw [toNat_unpackExponent, toNat_unpackExponent, h, Nat.mod_mul_left_mod, Nat.add_mod_right]
  have hs : Sign.ofBitVec (@unpackSign .binary64 v') =
      -Sign.ofBitVec (@unpackSign .binary64 v) := by
    rcases lt_or_ge v.toNat signBit with hlt | hge
    · have hge' : signBit ≤ v'.toNat := by rw [h, Nat.mod_eq_of_lt] <;> omega
      rw [ofBitVec_of_lt hlt, ofBitVec_of_ge hge']
      rfl
    · have hlt' : v'.toNat < signBit := by
        simp only [signBit] at *
        omega
      rw [ofBitVec_of_ge hge, ofBitVec_of_lt hlt']
      rfl
  unfold UnpackedFloat.unpack
  dsimp only
  rw [he, hs]
  -- what is left is the kind of number, which exponent and mantissa decide alike on both sides
  by_cases hspecial : @unpackExponent .binary64 v = -1#11
  · rw [if_pos hspecial, if_pos hspecial, hm]
    split <;> rfl
  rw [if_neg hspecial, if_neg hspecial]
  by_cases hsmall : @unpackExponent .binary64 v = 0#11
  · rw [if_pos hsmall, if_pos hsmall]
    by_cases hzero : @unpackMantissa .binary64 v = 0#52
    · rw [dif_pos (hm.trans hzero), dif_pos hzero]
      rfl
    · rw [dif_neg (hm ▸ hzero), dif_neg hzero]
      exact (finite.injEq ..).mpr ⟨rfl, congrArg BitVec.toNat hm, rfl⟩
  · rw [if_neg hsmall, if_neg hsmall]
    exact (finite.injEq ..).mpr ⟨rfl, congrArg (fun m => (1#1 ++ m).toNat) hm, rfl⟩

/-- The negative of a double has the other sign and the same magnitude. -/
theorem neg_ofMagnitude (negative : Bool) {n : ℕ} (h : n ≤ infinityBits) :
    -ofMagnitude negative n = ofMagnitude (!negative) n := by
  have hlt : n < signBit := h.trans_lt (by decide)
  refine congrArg (fun u => Float.ofModel (Float.Model.pack u)) (Eq.symm (unpack_of_flipped ?_))
  have hbits : (ofMagnitude negative n).toModel.toBits.toBitVec.toNat = _ :=
    toNat_toBits_ofMagnitude negative h
  rw [hbits, UInt64.toNat_toBitVec, UInt64.toNat_ofNat']
  cases negative
  all_goals
    simp only [signBit] at *
    simp
    omega

theorem toBits_injective : Function.Injective Float.toBits := by
  rintro ⟨⟨u, hu⟩⟩ ⟨⟨v, hv⟩⟩ h
  cases (h : u = v)
  rfl

/-- A defined double has a sign and a magnitude. -/
theorem exists_ofMagnitude {x : Float} (hx : Scalar.Defined x) :
    ∃ negative, ∃ n ≤ infinityBits, x = ofMagnitude negative n := by
  obtain ⟨a, ha, -⟩ := beq_iff.1 hx
  have hle : x.toBits.toNat % signBit ≤ infinityBits := by
    have hkey := natAbs_key_le ha
    rwa [key, keyOf_eq, natAbs_apply] at hkey
  refine ⟨decide (signBit ≤ x.toBits.toNat), x.toBits.toNat % signBit, hle, ?_⟩
  rw [ofMagnitude, ← toNat_toBits_eq, UInt64.ofNat_toNat]
  exact toBits_injective (toBits_ofBits hle).symm

theorem classify_ofMagnitude (negative : Bool) {n : ℕ} (h : n ≤ infinityBits) :
    classify (ofMagnitude negative n) = if n = infinityBits then .infinite negative
      else if n / hiddenBit = 0 then .finite negative (n % hiddenBit) (-1074)
      else .finite negative (hiddenBit + n % hiddenBit) ((n / hiddenBit : ℕ) - 1075) := by
  have hlt : n < signBit := h.trans_lt (by decide)
  -- the sign bit stands above every magnitude, so it can be cut off and read back
  have hmod : (if negative then signBit + n else n) % signBit = n := by
    split
    · rw [Nat.add_mod_left, Nat.mod_eq_of_lt hlt]
    · exact Nat.mod_eq_of_lt hlt
  -- conversely a magnitude alone does not reach the sign bit
  have hsign : decide (signBit ≤ if negative then signBit + n else n) = negative := by
    cases negative
    · simpa using hlt
    · simp
  unfold classify
  dsimp only
  rw [toNat_toBits_ofMagnitude negative h, hmod, hsign, if_neg h.not_gt]

/-- Rounding looks at the magnitude only. -/
theorem exists_roundSignificant_ofMagnitude (count : ℕ) {n : ℕ} (h : n ≤ infinityBits) :
    ∃ m ≤ infinityBits, ∀ negative,
      roundSignificant count (ofMagnitude negative n) = ofMagnitude negative m := by
  unfold roundSignificant
  -- the sign is a parameter of every class, so that the cases are the same for both signs
  simp only [classify_ofMagnitude _ h]
  split
  · exact ⟨n, h, fun _ => rfl⟩
  · split
    all_goals
      dsimp only
      split
      · exact ⟨n, h, fun _ => rfl⟩
      · exact ⟨_, magnitudeOf_le _, fun _ => rfl⟩

/-- Rounding commutes with the minus sign. -/
theorem roundSignificant_neg (count : ℕ) {x : Float} (hx : Scalar.Defined x) :
    roundSignificant count (-x) = -roundSignificant count x := by
  obtain ⟨negative, n, hn, rfl⟩ := exists_ofMagnitude hx
  obtain ⟨m, hm, hround⟩ := exists_roundSignificant_ofMagnitude count hn
  rw [neg_ofMagnitude _ hn, hround, hround, neg_ofMagnitude _ hm]

/-! ## The order -/

section Order

variable {x y : Float}

theorem natAbs_key_le_of_defined (hx : Scalar.Defined x) : (key x).natAbs ≤ infinityBits := by
  obtain ⟨a, ha, -⟩ := beq_iff.1 hx
  exact natAbs_key_le ha

/-- Infinities are doubles with the greatest magnitude. -/
theorem eq_of_not_finite (hx : Scalar.Defined x) (h : ¬ Finite x) :
    x = ofMagnitude (decide (key x < 0)) infinityBits := by
  obtain ⟨negative, n, hn, rfl⟩ := exists_ofMagnitude hx
  have hkey := key_ofMagnitude negative hn
  unfold Finite at h
  obtain rfl : n = infinityBits := by
    rw [hkey] at h
    split at h <;> omega
  rw [hkey]
  congr 1
  cases negative <;> decide

/-- Doubles are ordered as their keys, infinities as well. -/
theorem le_iff_key_of_defined (hx : Scalar.Defined x) (hy : Scalar.Defined y) :
    x ≤ y ↔ key x ≤ key y := by
  refine ⟨key_le_of_le, fun h => ?_⟩
  by_cases hfinite : Finite x ∧ Finite y
  · exact (le_iff_key hfinite.1 hfinite.2).2 h
  have hx' := natAbs_key_le_of_defined hx
  have hy' := natAbs_key_le_of_defined hy
  rcases h.lt_or_eq with hlt | heq
  · -- an infinity is not next to another double, whatever exponent and mantissa say
    obtain ⟨c, r, hplace, htop, hbottom, hinner⟩ := exists_placeOf hx'
    obtain ⟨c', r', hplace', htop', hbottom', hinner'⟩ := exists_placeOf hy'
    have hless : c < c' := by
      unfold Finite at *
      omega
    exact Binary64.le_iff.2 ⟨_, hplace, _, hplace', (Prod.Lex.toLex_lt_toLex.2 (.inl hless)).le⟩
  · have hxy : x = y := by
      unfold Finite at hfinite
      rw [eq_of_not_finite hx (by unfold Finite; omega),
        eq_of_not_finite hy (by unfold Finite; omega), heq]
    exact hxy ▸ LawfulScalar.le_iff.2 (.inr hx)

/-- Rounding leaves zeros and infinities alone. -/
theorem untouched_iff (x : Float) :
    (x == 0 || !Scalar.isFinite x) = true ↔ key x = 0 ∨ ¬ Finite x := by
  rw [Bool.or_eq_true, Bool.not_eq_true', Bool.eq_false_iff, Ne, isFinite_iff]
  by_cases hx : Finite x
  · rw [beq_zero_iff hx]
  · simp [hx]

theorem roundSignificant_of_untouched (count : ℕ) (hx : Scalar.Defined x)
    (h : key x = 0 ∨ ¬ Finite x) : roundSignificant count x = x := by
  refine roundSignificant_eq_self count fun negative' mantissa exponent hclass => ?_
  rcases h with hkey | hinfinite
  · obtain ⟨negative, n, hn, rfl⟩ := exists_ofMagnitude hx
    obtain rfl : n = 0 := by
      rw [key_ofMagnitude negative hn] at hkey
      split at hkey <;> omega
    rw [classify_ofMagnitude negative hn] at hclass
    cases hclass
    rfl
  · rw [eq_of_not_finite hx hinfinite, classify_ofMagnitude _ le_rfl, if_pos rfl] at hclass
    cases hclass

/-- Rounding keeps the order, also where it overflows. -/
theorem roundSignificant_le {count : ℕ} (hcount : 1 ≤ count) (h : x ≤ y) :
    roundSignificant count x ≤ roundSignificant count y := by
  obtain ⟨a, ha, b, hb, -⟩ := Binary64.le_iff.1 h
  have hx : Scalar.Defined x := beq_iff.2 ⟨a, ha, ha⟩
  have hy : Scalar.Defined y := beq_iff.2 ⟨b, hb, hb⟩
  have hx' : Scalar.Defined (roundSignificant count x) :=
    LawfulScalar.defined_roundSignificant count hx
  have hy' : Scalar.Defined (roundSignificant count y) :=
    LawfulScalar.defined_roundSignificant count hy
  have hkey := key_le_of_le h
  rw [le_iff_key_of_defined hx' hy']
  have hle := natAbs_key_le_of_defined hx
  have hle' := natAbs_key_le_of_defined hy
  have hround := natAbs_key_le_of_defined hx'
  have hround' := natAbs_key_le_of_defined hy'
  have infinite : ∀ {z : Float}, Scalar.Defined z → ¬ Finite z → roundSignificant count z = z :=
    fun hz hinfinite => roundSignificant_of_untouched count hz (.inr hinfinite)
  -- an infinite side stays as it is, and no magnitude exceeds that of the infinities
  by_cases hfinite : Finite x
  · by_cases hfinite' : Finite y
    · exact key_roundSignificant_mono hcount hfinite hfinite' hkey
    · rw [infinite hy hfinite'] at *
      unfold Finite at *
      omega
  · rw [infinite hx hfinite] at *
    by_cases htop : key x = infinityBits
    · have hfinite' : ¬ Finite y := by
        unfold Finite
        omega
      rwa [infinite hy hfinite']
    · unfold Finite at hfinite
      omega

theorem key_neg (hx : Scalar.Defined x) : key (-x) = -key x := by
  obtain ⟨negative, n, hn, rfl⟩ := exists_ofMagnitude hx
  rw [neg_ofMagnitude negative hn, key_ofMagnitude _ hn, key_ofMagnitude _ hn]
  cases negative <;> simp

end Order

end Discretization.Binary64

namespace Discretization

open Binary64

variable {digits : ℤ} {x y : Float}

/-- A rounded double is the one with so many significant digits, also where it was left alone. -/
theorem eq_roundSignificant_of_roundTo (hx : Scalar.Defined x) {a : Float}
    (h : roundTo digits x = .ok a) : a = roundSignificant digits.toNat x := by
  unfold roundTo at h
  split at h
  · rename_i hsame
    cases h
    exact (roundSignificant_of_untouched _ hx ((untouched_iff x).1 hsame)).symm
  · split at h
    · cases h
    · cases h
      rfl

/-- Rounding to significant digits. Up to the greatest number of digits it gives a result; rounding
again changes nothing, rounding keeps the order, and the negative of a number is rounded to the
negative of what the number is rounded to. -/
theorem rounds_of_le (hdigits : 1 ≤ digits) (h : x ≤ y) :
    (digits ≤ greatestDigits → ∃ a b, roundTo digits x = .ok a ∧ roundTo digits y = .ok b) ∧
    (roundTo digits x >>= roundTo digits) = roundTo digits x ∧
    (∀ a b, roundTo digits x = .ok a → roundTo digits y = .ok b → a ≤ b) ∧
    roundTo digits (-x) = (-·) <$> roundTo digits x := by
  obtain ⟨a, ha, b, hb, -⟩ := Binary64.le_iff.1 h
  have hx : Scalar.Defined x := beq_iff.2 ⟨a, ha, ha⟩
  have hy : Scalar.Defined y := beq_iff.2 ⟨b, hb, hb⟩
  refine ⟨fun hgreatest => ?_, ?_, fun a b ha hb => ?_, ?_⟩
  · have returns : ∀ z : Float, ∃ c, roundTo digits z = .ok c := by
      intro z
      unfold roundTo
      split
      · exact ⟨_, rfl⟩
      · exact ⟨_, if_neg (by omega)⟩
    obtain ⟨a, ha⟩ := returns x
    obtain ⟨b, hb⟩ := returns y
    exact ⟨a, b, ha, hb⟩
  · cases hround : roundTo digits x with
    | error e => rfl
    | ok a => exact roundTo_idem hround
  · rw [eq_roundSignificant_of_roundTo hx ha, eq_roundSignificant_of_roundTo hy hb]
    exact roundSignificant_le (by omega) h
  · -- whether a number is left alone does not depend on its sign
    have hsame : (-x == 0 || !Scalar.isFinite (-x)) = (x == 0 || !Scalar.isFinite x) := by
      rw [Bool.eq_iff_iff, untouched_iff, untouched_iff, Binary64.Finite, Binary64.Finite,
        key_neg hx, Int.natAbs_neg, neg_eq_zero]
    unfold roundTo
    rw [hsame]
    split
    · rfl
    · split
      · rfl
      · exact congrArg Except.ok (roundSignificant_neg _ hx)

/-- The smallest and the greatest double, of which the second is rounded to infinity. -/
theorem rounds_of_le_overflow :
    let x : Float := 5e-324
    let y : Float := 1.7976931348623157e308
    x ≤ y ∧ ∃ a b, roundTo 1 x = .ok a ∧ roundTo 1 y = .ok b ∧ a ≤ b ∧
      Scalar.isFinite b = false ∧ roundTo 1 (-x) = .ok (-a) ∧ roundTo 1 a = .ok a := by
  intro x y
  have hle : x ≤ y := by decide +kernel
  obtain ⟨hreturns, hidem, hmono, hneg⟩ := rounds_of_le (le_refl (1 : ℤ)) hle
  obtain ⟨a, b, ha, hb⟩ := hreturns (by decide)
  -- one digit of the greatest double is beyond the doubles
  have hinfinite : ∃ b, roundTo 1 y = .ok b ∧ Scalar.isFinite b = false :=
    Except.exists_of_decide (fun b => Scalar.isFinite b = false) (by decide +kernel)
  obtain ⟨b', hb', hinfinite⟩ := hinfinite
  rw [hb] at hb'
  cases hb'
  rw [ha] at hneg hidem
  exact ⟨hle, a, b, ha, hb, hmono a b ha hb, hinfinite, hneg, hidem⟩

end Discretization
