import Discretization.Proofs.Doubles
import Mathlib.Data.Int.ConditionallyCompleteOrder

/-!
# The Nearest Double

Below zero the grid of doubles is that of the magnitudes, mirrored. Every rational has one nearest
point on it, ties to even, and going to the nearest point keeps the order, so what lies between two
doubles stays between them. From the smallest normal double on the nearest point is off by a fixed
fraction of itself at most; below it lie all multiples of the smallest double.

## Main definitions

* `Binary64.point`: the rational that a signed magnitude stands for;
* `Binary64.Nearest`: a signed magnitude is the one nearest to a rational, ties to even.

## Main results

* `Binary64.Nearest.mono`: going to the nearest point keeps the order;
* `Binary64.Reads.mul_le`: how far the nearest point may lie above a rational;
* `Binary64.exists_value_eq`: small multiples of powers of two are on the grid.
-/

namespace Discretization.Binary64

theorem hiddenBit_pos : (0 : ℚ) < hiddenBit := by
  norm_num [hiddenBit]

@[simp]
theorem value_zero : value 0 = 0 := by
  norm_num [value]

theorem value_nonneg (n : ℕ) : 0 ≤ value n :=
  value_zero ▸ value_strictMono.monotone (Nat.zero_le n)

/-! ## Signed magnitudes -/

/-- The rational that a signed magnitude stands for. -/
def point (k : ℤ) : ℚ :=
  k.sign * value k.natAbs

@[simp]
theorem point_natCast (n : ℕ) : point n = value n := by
  rcases n.eq_zero_or_pos with rfl | hn
  · simp [point]
  · simp [point, Int.sign_eq_one_of_pos (Int.natCast_pos.2 hn)]

@[simp]
theorem point_zero : point 0 = 0 := by
  simp [point]

@[simp]
theorem point_neg (k : ℤ) : point (-k) = -point k := by
  simp [point]

theorem point_of_nonneg {k : ℤ} (h : 0 ≤ k) : point k = value k.natAbs := by
  obtain ⟨n, rfl⟩ := Int.eq_ofNat_of_zero_le h
  exact point_natCast n

theorem point_strictMono : StrictMono point := by
  have mono : ∀ k l : ℤ, 0 ≤ k → k < l → point k < point l := by
    intro k l hk hkl
    rw [point_of_nonneg hk, point_of_nonneg (hk.trans hkl.le)]
    exact value_strictMono (by omega)
  intro k l hkl
  rcases le_or_gt 0 k with hk | hk
  · exact mono k l hk hkl
  rcases le_or_gt 0 l with hl | hl
  · -- zero lies between
    have hneg := mono 0 (-k) le_rfl (by omega)
    rw [point_neg, point_zero] at hneg
    rcases hl.eq_or_lt with rfl | hl
    · simpa using hneg
    · have hpos := mono 0 l le_rfl hl
      rw [point_zero] at hpos
      linarith
  · have hmirrored := mono (-l) (-k) (by omega) (by omega)
    simpa using hmirrored

theorem point_nonneg {k : ℤ} (h : 0 ≤ k) : 0 ≤ point k :=
  point_zero ▸ point_strictMono.monotone h

theorem abs_point (k : ℤ) : |point k| = value k.natAbs := by
  rcases le_total 0 k with hk | hk
  · rw [abs_of_nonneg (point_nonneg hk), point_of_nonneg hk]
  · have hneg : 0 ≤ -k := by omega
    rw [← abs_neg, ← point_neg, abs_of_nonneg (point_nonneg hneg), point_of_nonneg hneg,
      Int.natAbs_neg]

/-! ## The nearest point -/

theorem reads_value (n : ℕ) : Reads (value n) n where
  below k hk := by
    subst hk
    exact (midpoint_lt_value k).le
  above := le_add_of_nonneg_right (half_pos (gap_pos n)).le
  even_of_eq_below k hk hx := by
    subst hk
    exact absurd hx (midpoint_lt_value k).ne'
  even_of_eq_above hx := absurd hx (lt_add_of_pos_right _ (half_pos (gap_pos n))).ne

/-- A signed magnitude is the one nearest to a rational; between two it is the even one. -/
structure Nearest (q : ℚ) (k : ℤ) : Prop where
  reads : Reads |q| k.natAbs
  nonneg : 0 ≤ q → 0 ≤ k
  nonpos : q ≤ 0 → k ≤ 0

namespace Nearest

variable {q q' : ℚ} {k k' : ℤ}

theorem point (k : ℤ) : Nearest (point k) k where
  reads := abs_point k ▸ reads_value k.natAbs
  nonneg h := by
    rw [← point_zero] at h
    exact point_strictMono.le_iff_le.1 h
  nonpos h := by
    rw [← point_zero] at h
    exact point_strictMono.le_iff_le.1 h

theorem neg (h : Nearest q k) : Nearest (-q) (-k) where
  reads := by
    rw [abs_neg, Int.natAbs_neg]
    exact h.reads
  nonneg hq := neg_nonneg.2 (h.nonpos (neg_nonneg.1 hq))
  nonpos hq := neg_nonpos.2 (h.nonneg (neg_nonpos.1 hq))

theorem of_reads {n : ℕ} (h : Reads q n) (hq : 0 ≤ q) : Nearest q n where
  reads := by
    rw [abs_of_nonneg hq]
    exact h
  nonneg _ := Int.natCast_nonneg n
  nonpos hneg := by
    obtain rfl : q = 0 := hneg.antisymm hq
    have hzero : n = 0 := h.unique (value_zero ▸ reads_value 0)
    simp [hzero]

/-- Going to the nearest point keeps the order. -/
theorem mono (h : Nearest q k) (h' : Nearest q' k') (hle : q ≤ q') : k ≤ k' := by
  rcases le_total 0 q with hq | hq
  · -- both on the side of the magnitudes
    have hread := h.reads
    have hread' := h'.reads
    rw [abs_of_nonneg hq] at hread
    rw [abs_of_nonneg (hq.trans hle)] at hread'
    have := hread.mono hread' hle
    have := h.nonneg hq
    have := h'.nonneg (hq.trans hle)
    omega
  rcases le_total 0 q' with hq' | hq'
  · -- zero lies between
    exact (h.nonpos hq).trans (h'.nonneg hq')
  · -- both on the mirrored side, where larger magnitudes come first
    have hread := h.reads
    have hread' := h'.reads
    rw [abs_of_nonpos hq] at hread
    rw [abs_of_nonpos hq'] at hread'
    have := hread'.mono hread (neg_le_neg hle)
    have := h.nonpos hq
    have := h'.nonpos hq'
    omega

theorem unique (h : Nearest q k) (h' : Nearest q k') : k = k' :=
  (h.mono h' le_rfl).antisymm (h'.mono h le_rfl)

end Nearest

/-! ## Errors -/

/-- From the smallest normal double on a gap is a small part of the double above it. -/
theorem gap_le {n : ℕ} (hn : hiddenBit ≤ n + 1) : gap n ≤ value (n + 1) / hiddenBit := by
  obtain ⟨k, m, hsteps, hm, hk⟩ := exists_steps (n + 1)
  have hlow : hiddenBit ≤ m := hk.elim (fun h => by subst h; omega) id
  rw [le_div_iff₀ hiddenBit_pos]
  calc
    gap n * hiddenBit ≤ gap (n + 1) * hiddenBit :=
      mul_le_mul_of_nonneg_right (gap_mono n.le_succ) hiddenBit_pos.le
    _ ≤ gap (n + 1) * m := mul_le_mul_of_nonneg_left (by exact_mod_cast hlow) (gap_pos _).le
    _ = value (n + 1) := by rw [hsteps, gap_add hm hk, value_add hm.le hk, mul_comm]

/-- Beyond the first normal doubles it is smaller still. -/
theorem gap_lt {n : ℕ} (hn : 2 * hiddenBit < n + 1) : gap n < value (n + 1) / hiddenBit := by
  obtain ⟨k, m, hsteps, hm, hk⟩ := exists_steps (n + 1)
  have hlow : hiddenBit ≤ m := hk.elim (fun h => by subst h; omega) id
  have hvalue : gap (n + 1) * m = value (n + 1) := by
    rw [hsteps, gap_add hm hk, value_add hm.le hk, mul_comm]
  rw [lt_div_iff₀ hiddenBit_pos, ← hvalue]
  rcases hlow.lt_or_eq with hlt | rfl
  · exact mul_lt_mul' (gap_mono n.le_succ) (by exact_mod_cast hlt) hiddenBit_pos.le (gap_pos _)
  · -- the double above is a power of two, and below it the grid is finer
    refine mul_lt_mul_of_pos_right ?_ hiddenBit_pos
    obtain ⟨j, rfl⟩ : ∃ j, k = j + 1 := Nat.exists_eq_succ_of_ne_zero (by
      rintro rfl
      omega)
    obtain rfl : n = j * hiddenBit + (2 * hiddenBit - 1) := by
      have : 0 < hiddenBit := by decide
      rw [Nat.succ_mul] at hsteps
      omega
    rw [hsteps, gap_add (by decide) (.inr (by decide)), gap_add (by decide) (.inr le_rfl)]
    exact zpow_lt_zpow_right₀ (by norm_num) (by push_cast; omega)

/-- The nearest magnitude is not far above a rational. -/
theorem Reads.mul_le {x : ℚ} {n : ℕ} (h : Reads x n) (hn : hiddenBit ≤ n) :
    value n * (1 - 1 / (2 * hiddenBit)) ≤ x := by
  obtain ⟨j, rfl⟩ : ∃ j, n = j + 1 := ⟨n - 1, by
    have : 0 < hiddenBit := by decide
    omega⟩
  have hmid := h.below j rfl
  have hgap := gap_le hn
  have hsplit : value (j + 1) * (1 - 1 / (2 * hiddenBit)) =
      value (j + 1) - value (j + 1) / hiddenBit / 2 := by ring
  rw [midpoint_eq] at hmid
  linarith

/-- The next magnitude below is not far below. -/
theorem mul_le_value {n : ℕ} (hn : hiddenBit ≤ n + 1) :
    value (n + 1) * (1 - 1 / hiddenBit) ≤ value n := by
  have hgap := gap_le hn
  have hsplit : value (n + 1) * (1 - 1 / hiddenBit) =
      value (n + 1) - value (n + 1) / hiddenBit := by ring
  have hsucc := value_succ n
  linarith

theorem Reads.le_of_lt_midpoint {x : ℚ} {n j : ℕ} (h : Reads x j) (hx : x < midpoint n) :
    j ≤ n := by
  by_contra hlt
  obtain ⟨l, rfl⟩ : ∃ l, j = l + 1 := ⟨j - 1, by omega⟩
  have hmid : midpoint n ≤ midpoint l := midpoint_strictMono.monotone (by omega)
  exact absurd (h.below l rfl) (hx.trans_le hmid).not_ge

/-- What is smaller than a double by half a unit of its last digit is nearest to a smaller one. -/
theorem Reads.le_of_le_mul {x : ℚ} {n j : ℕ} (h : Reads x j) (hn : 2 * hiddenBit < n + 1)
    (hx : x ≤ value (n + 1) * (1 - 1 / (2 * hiddenBit))) : j ≤ n := by
  apply h.le_of_lt_midpoint
  have hgap := gap_lt hn
  have hsplit : value (n + 1) * (1 - 1 / (2 * hiddenBit)) =
      value (n + 1) - value (n + 1) / hiddenBit / 2 := by ring
  rw [midpoint_eq]
  linarith

/-! ## Multiples of powers of two -/

theorem exists_value_eq {m : ℕ} (hm : m ≤ 2 * hiddenBit) (e : ℕ) :
    ∃ n, value n = m * 2 ^ (e - 1074 : ℤ) := by
  -- a mantissa that is too small for the exponent is doubled, for the exponent below
  induction e generalizing m with
  | zero => exact ⟨m, by simpa using value_add (k := 0) hm (.inl rfl)⟩
  | succ e ih =>
    rcases le_or_gt hiddenBit m with hge | hlt
    · exact ⟨(e + 1) * hiddenBit + m, value_add hm (.inr hge)⟩
    · obtain ⟨n, hn⟩ := ih (m := 2 * m) (by omega)
      refine ⟨n, hn.trans ?_⟩
      rw [Nat.cast_succ, add_sub_right_comm, zpow_add_one₀ two_ne_zero]
      push_cast
      ring

/-- The smallest magnitudes count the smallest double. -/
theorem value_of_le {m : ℕ} (hm : m ≤ 2 * hiddenBit) : value m = m * 2 ^ (-1074 : ℤ) := by
  simpa using value_add (k := 0) hm (.inl rfl)

/-- Every double is a multiple of the smallest one. -/
theorem exists_point_eq_mul (k : ℤ) : ∃ a : ℤ, point k = a * 2 ^ (-1074 : ℤ) := by
  have hvalue : ∀ n, ∃ a : ℕ, value n = a * 2 ^ (-1074 : ℤ) := by
    intro n
    obtain ⟨e, m, rfl, hm, hk⟩ := exists_steps n
    refine ⟨m * 2 ^ e, ?_⟩
    rw [value_add hm.le hk, sub_eq_add_neg, zpow_add₀ two_ne_zero, zpow_natCast, Nat.cast_mul,
      Nat.cast_pow, Nat.cast_ofNat, mul_assoc]
  obtain ⟨a, ha⟩ := hvalue k.natAbs
  exact ⟨k.sign * a, by rw [point, ha, Int.cast_mul, Int.cast_natCast, mul_assoc]⟩

/-- So the difference of two doubles is on the grid as well, if it is small enough. -/
theorem exists_point_sub (k l : ℤ) (h : |point k - point l| ≤ value (2 * hiddenBit)) :
    ∃ j, point j = point k - point l := by
  obtain ⟨a, ha⟩ := exists_point_eq_mul k
  obtain ⟨b, hb⟩ := exists_point_eq_mul l
  have hp : (0 : ℚ) < 2 ^ (-1074 : ℤ) := zpow_pos (by norm_num) _
  have hdiff : point k - point l = ((a - b : ℤ) : ℚ) * 2 ^ (-1074 : ℤ) := by
    rw [ha, hb, Int.cast_sub, sub_mul]
  rw [hdiff, value_of_le le_rfl, abs_mul, abs_of_pos hp, mul_le_mul_iff_left₀ hp] at h
  have hsmall : (a - b).natAbs ≤ 2 * hiddenBit := by
    have hcast : |a - b| ≤ ((2 * hiddenBit : ℕ) : ℤ) := by exact_mod_cast h
    rw [Int.abs_eq_natAbs] at hcast
    exact_mod_cast hcast
  refine ⟨a - b, ?_⟩
  rw [hdiff, point, value_of_le hsmall, ← mul_assoc, ← Int.cast_natCast (a - b).natAbs,
    ← Int.cast_mul, Int.sign_mul_natAbs]

end Discretization.Binary64
