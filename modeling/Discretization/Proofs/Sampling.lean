import Discretization.Interpolation
import Discretization.Proofs.Arithmetic
import Discretization.Random
import Discretization.Tensor

/-!
# Sampling an Interval

Equidistant values and samples of an interval of doubles lie in it, although every operation on the
way rounds. The width of the interval may be rounded up, and then the double below it is at most the
exact width. A fraction below one takes the width down by half a unit of its last digit at least, so
the rounded product is that double or a smaller one. A whole step of a grid is taken off the width
before its rounding can matter, as long as the step itself was not rounded as a subnormal double.

After that the values are rounded to significant digits. This keeps their order, so they stay in the
interval if its bounds do not leave it.

## Main definitions

* `Binary64.Span`: an interval with finite bounds in order and a finite width;
* `Binary64.Inside`: a double lies between two others;
* `Binary64.Coarse`: the step of a grid is zero or a normal double.

## Main results

* `Binary64.Span.inside_sample`: a sample lies in the interval;
* `Binary64.Span.inside_grid`: the values of a grid lie in the interval;
* `Binary64.Inside.roundTo`: rounding keeps values inside if its bounds stay there;
* `Source.Fractional.uniform`: all values drawn from a source of fractions lie in the interval.
-/

namespace Discretization.Binary64

variable {lower upper x y : Float}

/-! ## Keys of some doubles -/

theorem rational_mono (h : key x ≤ key y) : rational x ≤ rational y :=
  point_strictMono.monotone h

theorem Finite.rounded (hx : Finite x) : Rounded (rational x) (key x) :=
  .point (Nat.le_of_lt hx)

theorem rational_of_key {n : ℕ} (h : key x = n) : rational x = value n := by
  rw [rational, h, point_natCast]

theorem value_infinityBits : value infinityBits = hiddenBit * 2 ^ (972 : ℤ) :=
  value_add (k := 2046) (m := hiddenBit) (by decide) (.inr le_rfl)

/-- Whole numbers of 53 bits are doubles. -/
theorem rational_ofNat {n : ℕ} (hn : n ≤ 2 * hiddenBit) :
    Finite (Scalar.ofNat n) ∧ rational (Scalar.ofNat n) = n := by
  obtain ⟨k, hk⟩ := exists_value_eq hn 1074
  rw [Nat.cast_ofNat, sub_self, zpow_zero, mul_one] at hk
  -- the exponents of doubles go far beyond those of such numbers
  have hlt : k < infinityBits := by
    rw [← value_strictMono.lt_iff_lt, hk, value_infinityBits]
    calc
      (n : ℚ) ≤ hiddenBit * 2 := by exact_mod_cast hn.trans_eq (Nat.mul_comm _ _)
      _ = hiddenBit * 2 ^ (1 : ℤ) := by rw [zpow_one]
      _ < hiddenBit * 2 ^ (972 : ℤ) := mul_lt_mul_of_pos_left
        (zpow_lt_zpow_right₀ (by norm_num) (by norm_num)) hiddenBit_pos
  -- a number that is a double already is not moved
  have hrounded : Rounded (n : ℚ) (k : ℤ) := by
    rw [← hk, ← point_natCast]
    exact .point hlt.le
  have hkey : key (Scalar.ofNat n : Float) = k := (rounded_ofNat n).unique hrounded
  exact ⟨by rwa [Finite, hkey], by rw [rational_of_key hkey, hk]⟩

theorem rounded_zero_zero : Rounded 0 0 := by
  rw [← point_zero]
  exact .point (Nat.zero_le _)

theorem key_zero : key (0 : Float) = 0 := by
  decide +kernel

theorem key_one : key (1 : Float) = (1023 * hiddenBit : ℕ) := by
  decide +kernel

/-- The greatest double below one. -/
theorem value_below_one : value (1023 * hiddenBit - 1) = 1 - 1 / (2 * hiddenBit) := by
  have hsteps : 1023 * hiddenBit - 1 = 1021 * hiddenBit + (2 * hiddenBit - 1) := by decide
  rw [hsteps, value_add (by omega) (.inr (by decide))]
  norm_num [hiddenBit]

theorem rational_le_of_lt_one (hx : key x < key 1) : rational x ≤ 1 - 1 / (2 * hiddenBit) := by
  rw [key_one] at hx
  calc
    rational x ≤ point (1023 * hiddenBit - 1 : ℕ) := point_strictMono.monotone (by
      have : 0 < hiddenBit := by decide
      omega)
    _ = _ := (point_natCast _).trans value_below_one

theorem finite_one : Finite (1 : Float) := by
  rw [Finite, key_one]
  decide

theorem rational_one : rational (1 : Float) = 1 := by
  have hsteps : 1023 * hiddenBit = 1022 * hiddenBit + hiddenBit := by ring
  rw [rational_of_key key_one, hsteps, value_add (by decide) (.inr le_rfl)]
  norm_num [hiddenBit]

theorem finite_zero : Finite (0 : Float) := by
  rw [Finite, key_zero]
  decide

/-- Both zeros equal zero, and nothing else does. -/
theorem beq_zero_iff (hx : Finite x) : (x == 0) = true ↔ key x = 0 := by
  have hle := le_iff_key hx finite_zero
  have hge := le_iff_key finite_zero hx
  rw [key_zero] at hle hge
  rw [le_antisymm_iff (α := ℤ), ← hle, ← hge]
  constructor
  · intro h
    exact ⟨LawfulScalar.le_iff.2 (.inr h), LawfulScalar.le_iff.2 (.inr (LawfulScalar.beq_symm h))⟩
  · rintro ⟨h, h'⟩
    rcases LawfulScalar.le_iff.1 h with hlt | heq
    · rcases LawfulScalar.le_iff.1 h' with hgt | heq
      · exact absurd (LawfulScalar.lt_trans hlt hgt) (Scalar.not_lt_self x)
      · exact LawfulScalar.beq_symm heq
    · exact heq

/-! ## The width of an interval -/

/-- The double lies between two others. -/
def Inside (lower upper x : Float) : Prop :=
  key lower ≤ key x ∧ key x ≤ key upper

/-- An interval with finite bounds in order and a finite width. -/
structure Span (lower upper : Float) : Prop where
  finite_lower : Finite lower
  finite_upper : Finite upper
  le : key lower ≤ key upper
  width : Finite (upper - lower)

/-- The step of a grid with several values is zero or a normal double, and the values can be
counted by doubles. -/
def Coarse (lower upper : Float) (count : ℕ) : Prop :=
  ∀ n, count = n + 2 → n + 1 ≤ hiddenBit / 2 ∧
    (key ((upper - lower) / Scalar.ofNat (n + 1)) = 0 ∨
      hiddenBit ≤ (key ((upper - lower) / Scalar.ofNat (n + 1))).natAbs)

theorem Inside.finite (h : Inside lower upper x) (hs : Span lower upper) : Finite x := by
  obtain ⟨hl, hu⟩ := h
  have hlower := hs.finite_lower
  have hupper := hs.finite_upper
  unfold Finite at *
  omega

namespace Span

theorem width_nearest (h : Span lower upper) :
    Nearest (rational upper - rational lower) (key (upper - lower)) :=
  (rounded_sub h.finite_upper h.finite_lower).nearest h.width

theorem width_nonneg (h : Span lower upper) : 0 ≤ rational upper - rational lower :=
  sub_nonneg.2 (rational_mono h.le)

theorem exists_width (h : Span lower upper) :
    ∃ n : ℕ, key (upper - lower) = n ∧ Reads (rational upper - rational lower) n := by
  have hnearest := h.width_nearest
  refine ⟨(key (upper - lower)).natAbs, ?_, ?_⟩
  · exact (Int.natAbs_of_nonneg (hnearest.nonneg h.width_nonneg)).symm
  · have := hnearest.reads
    rwa [abs_of_nonneg h.width_nonneg] at this

theorem rational_width_nonneg (h : Span lower upper) : 0 ≤ rational (upper - lower) := by
  obtain ⟨n, hn, -⟩ := h.exists_width
  rw [rational_of_key hn]
  exact value_nonneg n

/-- What is below the rounded width is at most the exact one, and so is a small rounded width. -/
theorem rational_le (h : Span lower upper) (hle : key x ≤ key (upper - lower))
    (hlt : key x < key (upper - lower) ∨ key (upper - lower) ≤ (2 * hiddenBit : ℕ)) :
    rational x ≤ rational upper - rational lower := by
  obtain ⟨n, hn, hreads⟩ := h.exists_width
  rw [hn] at hle hlt
  -- either a double below the rounded width, or all doubles up to the width are equidistant
  rcases hlt with hlt | hsmall
  · rcases n with _ | k
    · calc
        rational x ≤ point 0 := point_strictMono.monotone hlt.le
        _ = 0 := point_zero
        _ ≤ _ := h.width_nonneg
    · calc
        rational x ≤ point k := point_strictMono.monotone (by push_cast at hlt; omega)
        _ = value k := point_natCast k
        _ ≤ midpoint k := le_add_of_nonneg_right (half_pos (gap_pos k)).le
        _ ≤ _ := hreads.below k rfl
  · have hvalue : rational x ≤ value n := point_natCast n ▸ point_strictMono.monotone hle
    rcases le_or_gt (rational upper - rational lower) (value (2 * hiddenBit)) with hexact | hlarge
    · -- the width is a double itself
      obtain ⟨j, hj⟩ := exists_point_sub (key upper) (key lower)
        ((abs_of_nonneg h.width_nonneg).trans_le hexact)
      have hnearest := h.width_nearest
      rw [hn] at hnearest
      obtain rfl : j = n := (hj ▸ Nearest.point j).unique hnearest
      rw [point_natCast] at hj
      exact hvalue.trans_eq hj
    · have hmono : value n ≤ value (2 * hiddenBit) :=
        value_strictMono.monotone (by exact_mod_cast hsmall)
      linarith

/-- What is nearest to a part of the rounded width is not longer than it. -/
theorem finite_of_rounded (h : Span lower upper) {q : ℚ} (hx : Rounded q (key x)) (hnonneg : 0 ≤ q)
    (hle : q ≤ rational (upper - lower)) :
    0 ≤ key x ∧ key x ≤ key (upper - lower) ∧ Finite x := by
  have hpos : 0 ≤ key x := rounded_zero_zero.mono hx hnonneg
  have hwidth : key x ≤ key (upper - lower) := hx.mono h.width.rounded hle
  refine ⟨hpos, hwidth, ?_⟩
  have := h.width
  unfold Finite at *
  omega

/-- A part of the width, added to the lower bound, gives a value in the interval. -/
theorem inside_add (h : Span lower upper) (hx : Finite x) (hpos : 0 ≤ key x)
    (hle : key x ≤ key (upper - lower))
    (hlt : key x < key (upper - lower) ∨ key (upper - lower) ≤ (2 * hiddenBit : ℕ)) :
    Inside lower upper (lower + x) ∧ Inside lower upper (x + lower) := by
  have hnonneg : 0 ≤ rational x := point_nonneg hpos
  have hpart := h.rational_le hle hlt
  have inside : ∀ {y q}, Rounded q (key y) → q = rational lower + rational x →
      Inside lower upper y := by
    rintro y q hy rfl
    exact ⟨h.finite_lower.rounded.mono hy (by linarith),
      hy.mono h.finite_upper.rounded (by linarith)⟩
  exact ⟨inside (rounded_add h.finite_lower hx) rfl,
    inside (rounded_add hx h.finite_lower) (add_comm _ _)⟩

/-! ## Samples -/

/-- The lower bound and a fraction of the width give a value in the interval. -/
theorem inside_sample (h : Span lower upper) (hx : 0 ≤ key x) (hone : key x < key 1) :
    Inside lower upper (lower + (upper - lower) * x) := by
  have hfinite : Finite x := by
    rw [key_one] at hone
    have : 1023 * hiddenBit < infinityBits := by decide
    unfold Finite
    omega
  have hnonneg : 0 ≤ rational x := point_nonneg hx
  have hfraction := rational_le_of_lt_one hone
  obtain ⟨n, hn, -⟩ := h.exists_width
  have hproduct := rounded_mul h.width hfinite
  have hwidth := h.rational_width_nonneg
  have hpart : rational (upper - lower) * rational x ≤ rational (upper - lower) := by
    refine mul_le_of_le_one_right hwidth (hfraction.trans (sub_le_self _ ?_))
    exact div_nonneg zero_le_one (mul_nonneg zero_le_two hiddenBit_pos.le)
  have hmul := mul_nonneg hwidth hnonneg
  obtain ⟨hpos, hle, hfinite⟩ := h.finite_of_rounded hproduct hmul hpart
  refine (h.inside_add hfinite hpos hle ?_).1
  -- a small width is exact, and a large one loses its last digit to the fraction
  rcases le_or_gt n (2 * hiddenBit) with hsmall | hlarge
  · right
    rw [hn]
    exact_mod_cast hsmall
  · left
    obtain ⟨k, rfl⟩ : ∃ k, n = k + 1 := ⟨n - 1, by omega⟩
    have hreads := (hproduct.nearest hfinite).reads
    rw [abs_of_nonneg hmul, rational_of_key hn] at hreads
    have := hreads.le_of_le_mul hlarge
      (mul_le_mul_of_nonneg_left hfraction (value_nonneg (k + 1)))
    omega

/-! ## Grids -/

/-- A step is a part of the width. -/
theorem step_spec (h : Span lower upper) {n : ℕ} (hn : 0 < n) (hsmall : n ≤ 2 * hiddenBit) :
    Rounded (rational (upper - lower) / n) (key ((upper - lower) / Scalar.ofNat n)) ∧
      0 ≤ key ((upper - lower) / Scalar.ofNat n) ∧
      key ((upper - lower) / Scalar.ofNat n) ≤ key (upper - lower) ∧
      Finite ((upper - lower) / Scalar.ofNat n) := by
  obtain ⟨hfinite, hrational⟩ := rational_ofNat hsmall
  have hwidth := h.rational_width_nonneg
  have hn' : (1 : ℚ) ≤ n := by exact_mod_cast hn
  have hstep := rounded_div h.width hfinite (by
    rw [hrational]
    positivity)
  rw [hrational] at hstep
  exact ⟨hstep, h.finite_of_rounded hstep (by positivity) (div_le_self hwidth hn')⟩

/-- A share of a whole is not negative and at most one. -/
theorem share_spec {i n : ℕ} (hn : 0 < n) (hsmall : n ≤ 2 * hiddenBit) (hi : i ≤ n) :
    0 ≤ key (Scalar.ofNat i / Scalar.ofNat n : Float) ∧
      key (Scalar.ofNat i / Scalar.ofNat n : Float) ≤ key 1 ∧
      Finite (Scalar.ofNat i / Scalar.ofNat n) := by
  obtain ⟨hfinite, hrational⟩ := rational_ofNat hsmall
  obtain ⟨hfinite', hrational'⟩ := rational_ofNat (hi.trans hsmall)
  have hn' : (0 : ℚ) < n := by exact_mod_cast hn
  have hshare := rounded_div hfinite' hfinite (hrational ▸ hn'.ne')
  rw [hrational, hrational'] at hshare
  -- rounding keeps the order, and zero and one are doubles
  have hpos : 0 ≤ key (Scalar.ofNat i / Scalar.ofNat n : Float) :=
    rounded_zero_zero.mono hshare (by positivity)
  have hle : key (Scalar.ofNat i / Scalar.ofNat n : Float) ≤ key 1 :=
    hshare.mono finite_one.rounded
      (rational_one ▸ (div_le_one hn').2 (by exact_mod_cast hi))
  refine ⟨hpos, hle, ?_⟩
  have := finite_one
  unfold Finite at *
  omega

/-- A width whose step is rounded to zero is small. -/
theorem width_le (h : Span lower upper) {n : ℕ} (hn : 0 < n) (hcount : n ≤ hiddenBit / 2)
    (hstep : key ((upper - lower) / Scalar.ofNat n) = 0) :
    key (upper - lower) ≤ (2 * hiddenBit : ℕ) := by
  obtain ⟨w, hw, -⟩ := h.exists_width
  have hn' : (0 : ℚ) < n := by exact_mod_cast hn
  -- what is rounded to zero lies below the first midpoint
  have habove : value w / n ≤ midpoint 0 := by
    have hnearest := (h.step_spec hn (hcount.trans (by decide))).1.nearest (by
      rw [hstep]
      decide)
    rw [hstep, rational_of_key hw] at hnearest
    have := hnearest.reads.above
    rwa [abs_of_nonneg (div_nonneg (value_nonneg w) hn'.le)] at this
  have hgap : gap 0 = 2 ^ (-1074 : ℤ) := by
    simpa using gap_add (k := 0) (m := 0) (by decide) (.inl rfl)
  have hcast : (n : ℚ) ≤ hiddenBit / 2 := by
    rw [le_div_iff₀ two_pos]
    exact_mod_cast (Nat.mul_le_mul_right 2 hcount).trans_eq (by decide)
  have hp : (0 : ℚ) < 2 ^ (-1074 : ℤ) := zpow_pos (by norm_num) _
  have hvalue : value w ≤ value (2 * hiddenBit) := by
    -- so the width is at most as many first midpoints as there are steps
    calc
      value w ≤ midpoint 0 * n := (div_le_iff₀ hn').1 habove
      _ = 2 ^ (-1074 : ℤ) * n / 2 := by
        rw [midpoint, value_zero, hgap, zero_add, div_mul_eq_mul_div]
      _ ≤ 2 ^ (-1074 : ℤ) * (hiddenBit / 2) / 2 :=
        div_le_div_of_nonneg_right (mul_le_mul_of_nonneg_left hcast hp.le) two_pos.le
      _ ≤ (2 * hiddenBit : ℕ) * 2 ^ (-1074 : ℤ) := by
        have := mul_pos hp hiddenBit_pos
        generalize (2 : ℚ) ^ (-1074 : ℤ) = p at *
        push_cast
        linarith
      _ = value (2 * hiddenBit) := (value_of_le le_rfl).symm
  rw [hw]
  exact_mod_cast value_strictMono.le_iff_le.1 hvalue

/-- Where the step is zero, the width is so small that it is exact, and shares of it are added. -/
theorem inside_share (h : Span lower upper) {i n : ℕ} (hn : 0 < n) (hcount : n ≤ hiddenBit / 2)
    (hstep : key ((upper - lower) / Scalar.ofNat n) = 0) (hi : i ≤ n) :
    Inside lower upper (Scalar.ofNat i / Scalar.ofNat n * (upper - lower) + lower) := by
  obtain ⟨hpos, hle, hquotient⟩ := share_spec hn (hcount.trans (by decide)) hi
  have hnonneg : 0 ≤ rational (Scalar.ofNat i / Scalar.ofNat n : Float) := point_nonneg hpos
  have hone : rational (Scalar.ofNat i / Scalar.ofNat n : Float) ≤ 1 :=
    rational_one ▸ rational_mono hle
  have hwidth := h.rational_width_nonneg
  obtain ⟨hpos, hle, hfinite⟩ := h.finite_of_rounded (rounded_mul hquotient h.width)
    (mul_nonneg hnonneg hwidth) (mul_le_of_le_one_left hwidth hone)
  exact (h.inside_add hfinite hpos hle (.inr (h.width_le hn hcount hstep))).2

/-- All but one of the steps make up for what two roundings add. -/
theorem mul_le_of_shares {a b c : ℚ} {i n : ℕ} (ha : 0 ≤ a) (hi : i ≤ n)
    (hcount : n + 1 ≤ hiddenBit / 2) (hlong : a * (1 - 1 / (2 * hiddenBit)) ≤ b / (n + 1))
    (hprev : b * (1 - 1 / hiddenBit) ≤ c) : i * a ≤ c := by
  have hn : (0 : ℚ) < n + 1 := by positivity
  have hcast : ((n : ℚ) + 1) ≤ hiddenBit / 2 := by
    rw [le_div_iff₀ two_pos]
    exact_mod_cast (Nat.mul_le_mul_right 2 hcount).trans_eq (by decide)
  -- the unit of the last place, by which a rounding is wrong at most
  obtain ⟨u, hu⟩ : ∃ u : ℚ, u = 1 / (2 * hiddenBit) := ⟨_, rfl⟩
  have htwice : 1 / (hiddenBit : ℚ) = 2 * u := by
    rw [hu]
    field_simp
  have hunit : u * hiddenBit = 1 / 2 := by
    rw [hu]
    field_simp [hiddenBit_pos.ne']
  have hu0 : 0 < u := hu ▸ one_div_pos.2 (mul_pos two_pos hiddenBit_pos)
  -- there are few steps, so all their errors together are less than one step
  have hfew : u * (n + 1) ≤ 1 / 4 := by
    have := mul_le_mul_of_nonneg_left hcast hu0.le
    linarith
  rw [← hu, le_div_iff₀ hn] at hlong
  rw [htwice] at hprev
  have hu1 : 0 ≤ 1 - 2 * u := by
    have : u * 1 ≤ u * (n + 1) := mul_le_mul_of_nonneg_left (by linarith) hu0.le
    linarith
  calc
    i * a ≤ n * a := mul_le_mul_of_nonneg_right (by exact_mod_cast hi) ha
    _ ≤ (n + 1) * (1 - u) * (1 - 2 * u) * a := by
      refine mul_le_mul_of_nonneg_right ?_ ha
      nlinarith
    _ = a * (1 - u) * (n + 1) * (1 - 2 * u) := by ring
    _ ≤ b * (1 - 2 * u) := mul_le_mul_of_nonneg_right hlong hu1
    _ ≤ c := hprev

/-- Where the step is normal, so many steps are less than the width. -/
theorem inside_steps (h : Span lower upper) {i n : ℕ} (hcount : n + 1 ≤ hiddenBit / 2)
    (hstep : hiddenBit ≤ (key ((upper - lower) / Scalar.ofNat (n + 1))).natAbs) (hi : i ≤ n) :
    Inside lower upper
      (Scalar.ofNat i * ((upper - lower) / Scalar.ofNat (n + 1)) + lower) := by
  have hhalf : hiddenBit / 2 ≤ 2 * hiddenBit := by decide
  obtain ⟨hfinite, hrational⟩ := rational_ofNat (n := i) (by omega)
  obtain ⟨hrounded, hpos, hle, hfinite'⟩ := h.step_spec (n := n + 1) (by omega) (by omega)
  obtain ⟨s, hs⟩ := Int.eq_ofNat_of_zero_le hpos
  obtain ⟨w, hw, -⟩ := h.exists_width
  have hwidth : rational (upper - lower) = value w := rational_of_key hw
  rw [hs] at hstep hle
  rw [hw] at hle
  obtain ⟨k, rfl⟩ : ∃ k, w = k + 1 := ⟨w - 1, by
    have : 0 < hiddenBit := by decide
    omega⟩
  -- the step is not much longer than its share of the width
  have hreads := (hrounded.nearest hfinite').reads
  have hlong : value s * (1 - 1 / (2 * hiddenBit)) ≤ value (k + 1) / (n + 1) := by
    rw [hs, hwidth, abs_of_nonneg (div_nonneg (value_nonneg _) (Nat.cast_nonneg _))] at hreads
    exact_mod_cast hreads.mul_le hstep
  have hproduct := rounded_mul hfinite hfinite'
  rw [hrational, rational_of_key hs] at hproduct
  -- so many steps are at most the double below the width
  have hsteps : i * value s ≤ value k :=
    mul_le_of_shares (value_nonneg s) hi hcount hlong (mul_le_value (hstep.trans (by omega)))
  have hprev : value k < value (k + 1) := value_strictMono k.lt_succ_self
  have hlt : key (Scalar.ofNat i * ((upper - lower) / Scalar.ofNat (n + 1))) ≤ k := by
    refine hproduct.mono ?_ hsteps
    rw [← point_natCast]
    refine .point ?_
    have := h.width
    rw [Finite, hw] at this
    omega
  obtain ⟨hpos, hle, hfinite⟩ := h.finite_of_rounded hproduct
    (mul_nonneg (Nat.cast_nonneg i) (value_nonneg s)) (by linarith)
  refine (h.inside_add hfinite hpos hle (.inl ?_)).2
  rw [hw]
  push_cast
  omega

/-- The values of a grid lie in the interval. -/
theorem inside_grid (h : Span lower upper) {count : ℕ} (hcoarse : Coarse lower upper count) :
    ∀ x ∈ grid lower upper count, Inside lower upper x := by
  intro x hx
  unfold grid at hx
  dsimp only at hx
  split at hx
  · simp at hx
  · -- one value: nothing of the width is added to the lower bound
    obtain rfl := List.mem_singleton.1 hx
    obtain ⟨w, hw, -⟩ := h.exists_width
    have hproduct := rounded_mul finite_zero h.width
    have hzero : rational (0 : Float) = 0 := by rw [rational, key_zero, point_zero]
    rw [hzero, zero_mul] at hproduct
    have hkey := hproduct.unique rounded_zero_zero
    have hfinite : Finite (0 * (upper - lower)) := by
      rw [Finite, hkey]
      decide
    refine (h.inside_add hfinite hkey.ge ?_ ?_).2
    · rw [hkey, hw]
      exact Int.natCast_nonneg w
    · rw [hkey, hw]
      omega
  · rename_i n
    obtain ⟨hcount, hstep⟩ := hcoarse n rfl
    have hhalf : hiddenBit / 2 ≤ 2 * hiddenBit := by decide
    rcases List.mem_append.1 hx with hx | hx
    · obtain ⟨i, hi, rfl⟩ := List.mem_map.1 hx
      have hi : i < n + 1 := List.mem_range.1 hi
      have hzero := beq_zero_iff (h.step_spec (n := n + 1) (by omega) (by omega)).2.2.2
      -- a step of zero is not used; shares of the width are taken instead
      split
      · rename_i hstep
        exact h.inside_share (by omega) hcount (hzero.1 hstep) (by omega)
      · rename_i hstep'
        exact h.inside_steps hcount (hstep.resolve_left (mt hzero.2 hstep')) (by omega)
    · obtain rfl := List.mem_singleton.1 hx
      exact ⟨h.le, le_rfl⟩

/-- A step of one and a half of the smallest double is rounded to two of them, and the sixth of
seven steps is beyond the interval. -/
example : ((grid 0 5.4e-323 8).all (Scalar.between 0 5.4e-323)) = false := by
  decide +kernel

end Span

/-! ## Rounding -/

/-- Numbers that are left alone would not be changed by rounding either. -/
theorem key_of_roundTo {digits : ℤ} (hdigits : 1 ≤ digits) (hx : Finite x)
    (h : roundTo digits x = .ok y) : key y = key (roundSignificant digits.toNat x) := by
  unfold roundTo at h
  split at h
  · rename_i hsame
    cases h
    have hfinite : Scalar.isFinite x = true := isFinite_iff.2 hx
    have hzero : key x = 0 := (beq_zero_iff hx).1 (by simpa [hfinite] using hsame)
    have hcount : 1 ≤ digits.toNat := by omega
    obtain ⟨q, hq, hround⟩ := rounded_roundSignificant hcount hx
    rw [hzero] at hq
    -- of what is left alone only zero is finite, and it is rounded to zero
    have hcount : 1 ≤ min digits.toNat mostDigits := le_min hcount (by decide)
    have hpos : 0 ≤ q := Shortened.mono hcount .zero hq le_rfl
    obtain rfl : q = 0 := (hq.mono hcount .zero le_rfl).antisymm hpos
    rw [hzero, hround.unique rounded_zero_zero]
  · split at h
    · cases h
    · cases h
      rfl

/-- Rounding keeps values in an interval if its bounds do not leave it. -/
theorem Inside.roundTo (h : Inside lower upper x) (hs : Span lower upper) {digits : ℤ}
    (hdigits : 1 ≤ digits) (hlower : lower ≤ roundSignificant digits.toNat lower)
    (hupper : roundSignificant digits.toNat upper ≤ upper)
    (hy : Discretization.roundTo digits x = .ok y) : Inside lower upper y := by
  have hcount : 1 ≤ digits.toNat := by omega
  have hx := h.finite hs
  unfold Inside
  rw [key_of_roundTo hdigits hx hy]
  -- rounding keeps the order, so it is enough that it does not move the bounds outwards
  constructor
  · calc
      key lower ≤ key (roundSignificant digits.toNat lower) :=
        key_le_of_le hlower
      _ ≤ _ := key_roundSignificant_mono hcount hs.finite_lower hx h.1
  · calc
      _ ≤ key (roundSignificant digits.toNat upper) :=
        key_roundSignificant_mono hcount hx hs.finite_upper h.2
      _ ≤ key upper := key_le_of_le hupper

theorem Inside.between (h : Inside lower upper x) (hs : Span lower upper) :
    Scalar.between lower upper x = true := by
  have hx := h.finite hs
  unfold Scalar.between
  rw [Bool.and_eq_true, decide_eq_true_iff, decide_eq_true_iff]
  exact ⟨(le_iff_key hs.finite_lower hx).2 h.1, (le_iff_key hx hs.finite_upper).2 h.2⟩

end Discretization.Binary64

namespace Discretization.Source

open Binary64

/-! ## Sources of fractions -/

/-- The fractions of a source are not negative and less than one. -/
def Fractional : Source Float → Prop
  | replay fractions _ => ∀ x ∈ fractions, 0 ≤ x ∧ x < 1
  | stream fraction _ => ∀ k, 0 ≤ fraction k ∧ fraction k < 1

namespace Fractional

variable {s : Source Float}

theorem next (h : s.Fractional) :
    (0 ≤ key s.next.1 ∧ key s.next.1 < key 1) ∧ s.next.2.Fractional := by
  have hfraction : ∀ {x : Float}, 0 ≤ x ∧ x < 1 → 0 ≤ key x ∧ key x < key 1 := fun hx =>
    ⟨key_zero ▸ key_le_of_le hx.1, key_lt_of_lt finite_one hx.2⟩
  cases s with
  | replay fractions position =>
    refine ⟨?_, h⟩
    change 0 ≤ key (fractions.getD (position % fractions.length) 0) ∧
      key (fractions.getD (position % fractions.length) 0) < key 1
    rw [List.getD_eq_getElem?_getD]
    rcases hf : fractions[position % fractions.length]? with _ | f
    · rw [Option.getD_none, key_zero, key_one]
      decide
    · exact hfraction (h f (List.mem_of_getElem? hf))
  | stream fraction position => exact ⟨hfraction (h position), h⟩

theorem draw (h : s.Fractional) (count : ℕ) :
    (∀ x ∈ (s.draw count).1, 0 ≤ key x ∧ key x < key 1) ∧ (s.draw count).2.Fractional := by
  -- over the number of fractions; every one leaves a source of fractions
  induction count generalizing s with
  | zero => exact ⟨by simp [Source.draw], h⟩
  | succ count ih =>
    obtain ⟨hnext, hrest⟩ := h.next
    obtain ⟨hall, hlast⟩ := ih hrest
    refine ⟨?_, hlast⟩
    rintro x (_ | ⟨_, hx⟩)
    · exact hnext
    · exact hall x hx

/-- Samples lie in the interval. -/
theorem uniform (h : s.Fractional) {lower upper : Float} (hs : Span lower upper) {count : ℕ}
    {xs : List Float} {s' : Source Float} (hx : s.uniform lower upper count = .ok (xs, s')) :
    (∀ x ∈ xs, Inside lower upper x) ∧ s'.Fractional := by
  unfold Source.uniform at hx
  split at hx
  · obtain ⟨hall, hlast⟩ := h.draw count
    cases hx
    refine ⟨fun x hx => ?_, hlast⟩
    obtain ⟨f, hf, rfl⟩ := List.mem_map.1 hx
    exact hs.inside_sample (hall f hf).1 (hall f hf).2
  · cases hx

end Fractional

end Discretization.Source
