import Discretization.Modeling
import Discretization.Proofs.Generators
import Mathlib.Algebra.Order.Floor.Ring
import Mathlib.Analysis.SpecialFunctions.Integrals.Basic
import Mathlib.Data.Rat.Floor

/-!
# The Trapezoid Rule Integrates Piecewise Linear Functions

The coefficients of measure data on a grid are half the widths of the elements, added once to the
nodes below and once to the nodes above. Read over the rationals, a function that is linear between
neighbouring nodes has exactly the sum with these coefficients as its integral. Elements of no width
count nothing, so it does not matter if rounding makes nodes coincide.

What rounding gives is left open: the rationals are taken with any rule, and what is needed of it is
said where it is needed.

## Main definitions

* `Interpolates`: a function is linear between neighbouring nodes, with given values at the nodes;
* `quadrature`: the sum of the values at the nodes with coefficients;
* `Rounded`: the rationals with a rule of rounding.

## Main results

* `quadrature_trapezoidCoefficients`: the trapezoid rule over any nodes in order;
* `Modeling.uniformMeasureData_of_generate`: what measure data are made of a generated grid;
* `exists_generate_grid`: a rule that keeps order gives a grid in order;
* `integrated_of_generate`: measure data on a grid integrate piecewise linear functions.
-/

namespace Discretization

/-! ## Piecewise linear functions -/

section Interpolation

variable {f F : ℝ → ℝ} {a b x : ℝ} {nodes rest : List ℝ}

/-- The linear function with the values of `f` at `a` and `b`. -/
noncomputable def chord (f : ℝ → ℝ) (a b x : ℝ) : ℝ :=
  f a + (f b - f a) * ((x - a) / (b - a))

@[simp]
theorem chord_left : chord f a b a = f a := by simp [chord]

@[simp]
theorem chord_right : chord f a b b = f b := by
  by_cases hab : a = b
  · simp [hab]
  · simp [chord, sub_ne_zero.2 (Ne.symm hab)]

theorem continuous_chord (f : ℝ → ℝ) (a b : ℝ) : Continuous (chord f a b) := by
  unfold chord
  fun_prop

/-- The area under a chord is that of a trapezoid. -/
theorem integral_chord (f : ℝ → ℝ) (a b : ℝ) :
    ∫ x in a..b, chord f a b x = (b - a) / 2 * (f a + f b) := by
  by_cases hab : a = b
  · simp [hab]
  have hne : b - a ≠ 0 := sub_ne_zero.2 (Ne.symm hab)
  have hsplit : ∫ x in a..b, chord f a b x =
      (∫ _ in a..b, f a) + ∫ x in a..b, (f b - f a) * ((x - a) / (b - a)) := by
    refine intervalIntegral.integral_add intervalIntegrable_const ?_
    exact Continuous.intervalIntegrable (by fun_prop) a b
  rw [hsplit, intervalIntegral.integral_const, intervalIntegral.integral_const_mul,
    intervalIntegral.integral_div, intervalIntegral.integral_sub (by simp) (by simp), integral_id,
    intervalIntegral.integral_const]
  simp only [smul_eq_mul]
  field_simp
  ring

/-- Between neighbouring nodes, `F` is the linear function with the values of `f` at both. -/
def Interpolates (f F : ℝ → ℝ) (nodes : List ℝ) : Prop :=
  ∀ a b, [a, b] <:+: nodes → a < b → ∀ x, a ≤ x → x ≤ b → F x = chord f a b x

theorem Interpolates.tail (h : Interpolates f F (a :: rest)) : Interpolates f F rest :=
  fun b c hbc => h b c (hbc.trans (List.suffix_cons a rest).isInfix)

/-- The function that has the values of `f` at the nodes and is linear between neighbours. -/
noncomputable def interpolant (f : ℝ → ℝ) : List ℝ → ℝ → ℝ
  | [], _ => 0
  | [a], _ => f a
  | a :: b :: rest, x => if x ≤ b then chord f a b x else interpolant f (b :: rest) x

theorem interpolates_interpolant (f : ℝ → ℝ) (h : nodes.Pairwise (· ≤ ·)) :
    Interpolates f (interpolant f nodes) nodes := by
  induction nodes with
  | nil => exact fun a b hab => nomatch hab.length_le
  | cons c rest ih =>
    cases rest with
    | nil => exact fun a b hab => absurd hab.length_le (by simp)
    | cons d rest =>
      intro a b hab hlt x hax hxb
      rw [interpolant]
      rcases List.infix_cons_iff.1 hab with hprefix | hlater
      · obtain ⟨rfl, hprefix'⟩ := List.cons_prefix_cons.1 hprefix
        obtain ⟨rfl, -⟩ := List.cons_prefix_cons.1 hprefix'
        rw [if_pos hxb]
      · obtain ⟨-, htail⟩ := List.pairwise_cons.1 h
        split
        · -- a later element meets the first one in a node at most
          rename_i hxd
          have hda : d ≤ a := by
            rcases List.mem_cons.1 (hlater.subset List.mem_cons_self) with rfl | ha
            · exact le_rfl
            · exact List.rel_of_pairwise_cons htail ha
          obtain rfl : x = a := le_antisymm (hxd.trans hda) hax
          obtain rfl : x = d := le_antisymm hxd hda
          rw [chord_right, chord_left]
        · exact ih htail a b hlater hlt x hax hxb

/-! ## Sums with coefficients -/

/-- The sum of the values of a function at the nodes, each times the coefficient of its node. -/
noncomputable def quadrature (f : ℝ → ℝ) (coefficients nodes : List ℝ) : ℝ :=
  (List.zipWith (fun c x => c * f x) coefficients nodes).sum

/-- Half the widths of the elements between neighbouring nodes. -/
noncomputable def halfWidths (nodes : List ℝ) : List ℝ :=
  List.zipWith (fun a b => (b - a) / 2) nodes nodes.tail

/-- The coefficients of the trapezoid rule: half the widths, added once to the nodes below and once
to the nodes above. -/
noncomputable def trapezoidCoefficients (nodes : List ℝ) : List ℝ :=
  List.zipWith (· + ·) (halfWidths nodes ++ [0]) (0 :: halfWidths nodes)

theorem quadrature_add (f : ℝ → ℝ) {cs ds : List ℝ} (h : cs.length = ds.length)
    (nodes : List ℝ) :
    quadrature f (List.zipWith (· + ·) cs ds) nodes =
      quadrature f cs nodes + quadrature f ds nodes := by
  unfold quadrature
  -- one step for both lists of coefficients, as long as there are nodes for them
  induction cs generalizing ds nodes with
  | nil =>
    obtain rfl : ds = [] := List.length_eq_zero_iff.1 h.symm
    simp
  | cons c cs ih =>
    cases ds with
    | nil => cases h
    | cons d ds =>
      cases nodes with
      | nil => simp
      | cons x nodes =>
        simp only [List.zipWith_cons_cons, List.sum_cons, ih (Nat.succ.inj h)]
        ring

theorem quadrature_append_zero (f : ℝ → ℝ) (cs nodes : List ℝ) :
    quadrature f (cs ++ [0]) nodes = quadrature f cs nodes := by
  unfold quadrature
  induction cs generalizing nodes with
  | nil => cases nodes <;> simp
  | cons c cs ih => cases nodes <;> simp [ih]

theorem quadrature_one {cs : List ℝ} (h : cs.length = nodes.length) :
    quadrature (fun _ => 1) cs nodes = cs.sum := by
  unfold quadrature
  induction cs generalizing nodes with
  | nil => simp
  | cons c cs ih =>
    cases nodes with
    | nil => cases h
    | cons x nodes =>
      rw [List.zipWith_cons_cons, List.sum_cons, List.sum_cons, ih (Nat.succ.inj h), mul_one]

/-- Both ends of every element count with half its width, which together is the integral over it. -/
theorem integral_of_interpolates (h : (a :: rest).Pairwise (· ≤ ·))
    (hF : Interpolates f F (a :: rest)) :
    IntervalIntegrable F MeasureTheory.volume a (rest.getLastD a) ∧
      ∫ x in a..rest.getLastD a, F x = quadrature f (halfWidths (a :: rest)) (a :: rest) +
        quadrature f (halfWidths (a :: rest)) rest := by
  -- element by element: integrability goes along, since adjoining integrals add up only with it
  induction rest generalizing a with
  | nil => simp [quadrature, halfWidths]
  | cons b rest ih =>
    obtain ⟨hhead, htail⟩ := List.pairwise_cons.1 h
    have hab : a ≤ b := hhead b List.mem_cons_self
    obtain ⟨hlater, hintegral⟩ := ih htail hF.tail
    have hfirst : Set.EqOn (chord f a b) F (Set.uIoo a b) := by
      intro x hx
      rw [Set.uIoo_of_le hab] at hx
      exact (hF a b ⟨[], rest, rfl⟩ (hx.1.trans hx.2) x hx.1.le hx.2.le).symm
    have hchord : IntervalIntegrable F MeasureTheory.volume a b :=
      ((continuous_chord f a b).intervalIntegrable a b).congr_uIoo hfirst
    rw [List.getLastD_cons]
    refine ⟨hchord.trans hlater, ?_⟩
    rw [← intervalIntegral.integral_add_adjacent_intervals hchord hlater, hintegral,
      ← intervalIntegral.integral_congr_uIoo hfirst, integral_chord]
    simp only [quadrature, halfWidths, List.tail_cons, List.zipWith_cons_cons, List.sum_cons]
    ring

/-- The trapezoid rule over nodes in order is exact for functions that are linear between them. -/
theorem quadrature_trapezoidCoefficients (h : (a :: rest).Pairwise (· ≤ ·))
    (hF : Interpolates f F (a :: rest)) :
    quadrature f (trapezoidCoefficients (a :: rest)) (a :: rest) =
      ∫ x in a..rest.getLastD a, F x := by
  have hleft : quadrature f (0 :: halfWidths (a :: rest)) (a :: rest) =
      quadrature f (halfWidths (a :: rest)) rest := by
    simp [quadrature]
  rw [trapezoidCoefficients, quadrature_add f (by simp), quadrature_append_zero, hleft,
    (integral_of_interpolates h hF).2]

theorem length_trapezoidCoefficients (a : ℝ) (rest : List ℝ) :
    (trapezoidCoefficients (a :: rest)).length = (a :: rest).length := by
  simp [trapezoidCoefficients, halfWidths]

theorem halfWidths_nonneg (h : nodes.Pairwise (· ≤ ·)) : ∀ c ∈ halfWidths nodes, 0 ≤ c := by
  unfold halfWidths
  induction nodes with
  | nil => simp
  | cons a rest ih =>
    obtain ⟨hhead, htail⟩ := List.pairwise_cons.1 h
    cases rest with
    | nil => simp
    | cons b rest =>
      have hab : a ≤ b := hhead b List.mem_cons_self
      simp only [List.tail_cons, List.zipWith_cons_cons, List.mem_cons, forall_eq_or_imp]
      exact ⟨by linarith, ih htail⟩

theorem trapezoidCoefficients_nonneg (h : nodes.Pairwise (· ≤ ·)) :
    ∀ c ∈ trapezoidCoefficients nodes, 0 ≤ c := by
  intro c hc
  obtain ⟨k, hk, rfl⟩ := List.mem_iff_getElem.1 hc
  simp only [trapezoidCoefficients, List.getElem_zipWith]
  have hright : ∀ c ∈ halfWidths nodes ++ [0], 0 ≤ c := by
    simpa [or_imp, forall_and] using halfWidths_nonneg h
  have hleft : ∀ c ∈ 0 :: halfWidths nodes, 0 ≤ c := by
    simpa using halfWidths_nonneg h
  exact add_nonneg (hright _ (List.getElem_mem _)) (hleft _ (List.getElem_mem _))

/-- The coefficients are the exact rule for a function that is one everywhere. -/
theorem sum_trapezoidCoefficients (h : (a :: rest).Pairwise (· ≤ ·)) :
    (trapezoidCoefficients (a :: rest)).sum = rest.getLastD a - a := by
  have hone : Interpolates (fun _ => 1) (fun _ => 1) (a :: rest) := by
    intro b c _ _ x _ _
    simp [chord]
  rw [← quadrature_one (length_trapezoidCoefficients a rest),
    quadrature_trapezoidCoefficients h hone]
  simp

end Interpolation

/-! ## Rationals that are rounded -/

/-- The rationals, with a rule for what rounding to a number of digits gives. -/
def Rounded (_rule : ℕ → ℚ → ℚ) : Type := ℚ

namespace Rounded

variable {rule : ℕ → ℚ → ℚ}

instance : Scalar (Rounded rule) :=
  { (inferInstance : Scalar ℚ) with roundSignificant := rule }

instance : DecidableEq (Rounded rule) := inferInstanceAs (DecidableEq ℚ)

/-- The rational itself. -/
def ofRat (q : ℚ) : Rounded rule := q

/-- The number as a real one. -/
def value (x : Rounded rule) : ℝ := Rat.cast (K := ℝ) x

@[simp]
theorem value_zero : value (0 : Rounded rule) = 0 := Rat.cast_zero (α := ℝ)

@[simp]
theorem value_add (x y : Rounded rule) : value (x + y) = value x + value y :=
  Rat.cast_add (α := ℝ) _ _

@[simp]
theorem value_sub (x y : Rounded rule) : value (x - y) = value x - value y :=
  Rat.cast_sub (α := ℝ) _ _

@[simp]
theorem value_mul (x y : Rounded rule) : value (x * y) = value x * value y :=
  Rat.cast_mul (α := ℝ) _ _

@[simp]
theorem value_div (x y : Rounded rule) : value (x / y) = value x / value y :=
  Rat.cast_div (α := ℝ) _ _

@[simp]
theorem value_ofNat (n : ℕ) : value (Scalar.ofNat n : Rounded rule) = n := by
  change (((n : ℤ) / (1 : ℕ) : ℚ) : ℝ) = n
  simp

theorem value_le {x y : Rounded rule} : value x ≤ value y ↔ x ≤ y :=
  Rat.cast_le (K := ℝ)

theorem value_halfWidths (nodes : List (Rounded rule)) :
    ((widths nodes).map (· / Scalar.ofNat 2)).map value = halfWidths (nodes.map value) := by
  unfold widths halfWidths
  rw [List.map_map, List.map_map, List.map_zip_eq_zipWith, ← List.map_tail, List.zipWith_map]
  congr 1
  funext x next
  simp

/-- The coefficients of a grid are those of the trapezoid rule. -/
theorem value_trapezoidWeights (nodes : List (Rounded rule)) :
    (trapezoidWeights nodes).map value = trapezoidCoefficients (nodes.map value) := by
  unfold trapezoidWeights trapezoidCoefficients
  rw [← value_halfWidths]
  generalize (widths nodes).map (· / Scalar.ofNat 2) = halves
  have hright : halves.map value ++ [0] = (halves ++ [0]).map value := by simp
  have hleft : 0 :: halves.map value = (0 :: halves).map value := by simp
  rw [hright, hleft]
  refine List.ext_getElem (by simp) fun k hk _ => ?_
  simp only [List.getElem_map, List.getElem_mapIdx, List.getElem_zip, List.getElem_zipWith]
  -- at both ends of the list one of the two summands is left out, and zero
  by_cases hfirst : k = 0
  · subst hfirst
    simp
  by_cases hend : k = halves.length
  · subst hend
    simp [hfirst]
  · simp [hfirst, hend]

/-- The grid of an interval is in order. -/
theorem pairwise_grid {lower upper : Rounded rule} (h : lower ≤ upper) (count : ℕ) :
    (grid lower upper count).Pairwise (· ≤ ·) := by
  have hwidth : 0 ≤ value upper - value lower := sub_nonneg.2 (value_le.2 h)
  unfold grid
  dsimp only
  split
  · exact .nil
  · exact List.pairwise_singleton _ _
  · rename_i n
    generalize hinner : (fun i : ℕ =>
      if ((upper - lower) / Scalar.ofNat (n + 1) : Rounded rule) == 0 then
        Scalar.ofNat i / Scalar.ofNat (n + 1) * (upper - lower) + lower
      else Scalar.ofNat i * ((upper - lower) / Scalar.ofNat (n + 1)) + lower) = inner
    -- whichever way it is computed, the inner value is the same
    have hvalue : ∀ i, value (inner i) =
        i / (n + 1) * (value upper - value lower) + value lower := by
      intro i
      rw [← hinner]
      dsimp only
      split
      · simp
      · simp only [value_add, value_mul, value_sub, value_div, value_ofNat, Nat.cast_add,
          Nat.cast_one]
        ring
    have hmono : ∀ {i j : ℕ}, i ≤ j → inner i ≤ inner j := by
      intro i j hij
      rw [← value_le, hvalue, hvalue]
      gcongr
    have hlast : ∀ i < n + 1, inner i ≤ upper := by
      intro i hi
      have hpart : (i : ℝ) / (n + 1) ≤ 1 := by
        rw [div_le_one (by positivity)]
        exact_mod_cast hi.le
      rw [← value_le, hvalue]
      nlinarith
    refine List.pairwise_append.2 ⟨?_, List.pairwise_singleton _ _, ?_⟩
    · rw [List.pairwise_map]
      exact List.pairwise_lt_range.imp fun hij => hmono hij.le
    · intro x hx y hy
      obtain ⟨i, hi, rfl⟩ := List.mem_map.1 hx
      rw [List.mem_singleton.1 hy]
      exact hlast i (List.mem_range.1 hi)

/-- A rule that keeps zero rounds all numbers. -/
theorem roundList_eq (hzero : ∀ digits, rule digits 0 = 0) {digits : ℤ} (hdigits : 1 ≤ digits)
    (hgreatest : digits ≤ greatestDigits) (xs : List (Rounded rule)) :
    roundList digits xs = .ok (xs.map (Scalar.roundSignificant digits.toNat)) := by
  rw [roundList_eq_ok, List.forall₂_map_right_iff]
  refine ⟨hdigits, List.forall₂_same.2 fun x _ => ?_⟩
  unfold roundTo
  split
  · rename_i hkept
    have hx : x = (0 : Rounded rule) := by
      rcases Bool.or_eq_true_iff.1 hkept with hx | hinfinite
      · exact eq_of_beq (α := ℚ) hx
      · exact absurd hinfinite Bool.false_ne_true
    have hround : Scalar.roundSignificant digits.toNat (0 : Rounded rule) = 0 := hzero _
    rw [hx, hround]
    rfl
  · rw [if_neg (by omega)]
    rfl

end Rounded

/-- A rule that keeps zero and the order gives every interval a grid in order. -/
theorem exists_generate_grid {rule : ℕ → ℚ → ℚ} (hzero : ∀ digits, rule digits 0 = 0)
    (hmono : ∀ digits, Monotone (rule digits)) {e e' : Environment (Rounded rule)}
    (hgenerator : e.generators.get? intervalKind .uniformGrid = some .grid)
    {lower upper : Rounded rule} (h : lower ≤ upper) {count digits : ℤ} (hcount : 1 ≤ count)
    (hdigits : 1 ≤ digits) (hgreatest : digits ≤ greatestDigits) {source : Option ℕ} {number : ℕ}
    (hsource : Environment.resolveSource source e = .ok number e') :
    ∃ values, Generation.generate (.scalar (.interval lower upper)) (some .uniformGrid)
        (some count) (some digits) source e = .ok (values, .uniformGrid) e' ∧
      (values.entries.map Rounded.value).Pairwise (· ≤ ·) := by
  -- a rule that keeps zero is applied to every value of the grid alike
  have hround : (Tensor.vector (grid lower upper count.toNat)).round digits =
      .ok (Tensor.vector
        ((grid lower upper count.toNat).map (Scalar.roundSignificant digits.toNat))) := by
    unfold Tensor.round Tensor.vector
    rw [Rounded.roundList_eq hzero hdigits hgreatest, List.length_map]
    rfl
  refine ⟨Tensor.vector ((grid lower upper count.toNat).map
    (Scalar.roundSignificant digits.toNat)), ?_, ?_⟩
  · rw [Generation.generate_of_registered hcount hdigits (by decide)
      (.scalar (.interval lower upper)) hgenerator]
    refine (EStateM.bind_of_ok hsource).trans ?_
    change (EnvironmentAction.check
      ((Tensor.vector (grid lower upper count.toNat)).round digits) >>=
        fun values => pure (values, Label.uniformGrid)) e' = _
    rw [hround]
    rfl
  · rw [Tensor.vector, List.pairwise_map, List.pairwise_map]
    exact (Rounded.pairwise_grid h count.toNat).imp fun hxy =>
      Rounded.value_le.2 (hmono digits.toNat hxy)

/-! ## Measure data on a grid -/

theorem length_trapezoidWeights {α : Type} [Scalar α] {nodes : List α} (h : nodes ≠ []) :
    (trapezoidWeights nodes).length = nodes.length := by
  have hpos := List.length_pos_of_ne_nil h
  simp only [trapezoidWeights, widths, List.length_mapIdx, List.length_zip, List.length_append,
    List.length_map, List.length_tail, List.length_cons, List.length_nil]
  omega

namespace Modeling

open Operation

variable {α : Type} [Scalar α]

/-- What measure data are made of a generated grid of at least two values: the grid itself, the
weights of the trapezoid rule, and a label of their own. -/
theorem uniformMeasureData_of_generate {w : Workspace α} {p : Ref} {q : Parameter α}
    (hq : w.model.parameter (.given p) = .ok q) {count : ℤ} {source : Option ℕ} {grid : Tensor α}
    {e : Environment α}
    (hgenerated : Generation.generate q.domain (some .uniformGrid) (some count) (some q.digits)
      source w.environment = .ok (grid, .uniformGrid) e)
    (hseveral : 2 ≤ grid.entries.length) (name : String) :
    uniformMeasureData p (some count) (some .uniformGrid) name source w =
      .ok { parameters := [p], coefficients := trapezoidWeights grid.entries,
            supports := [grid.entries], inner := [], label := .ofMeasure e.nextMeasure,
            weight := .unit, name }
        ⟨{ e with nextMeasure := e.nextMeasure + 1 }, w.model⟩ := by
  -- two values are enough for the rule
  have hcoefficients : coefficients q.domain .uniformGrid grid.entries =
      .ok (trapezoidWeights grid.entries) := by
    have hfew : ¬ grid.entries.length < 2 := by omega
    unfold coefficients
    simp only [hfew, if_true, if_false]
    rfl
  -- one row for one parameter and a coefficient for each value pass all checks
  have hmake : MeasureData.make? [p] (trapezoidWeights grid.entries) (Tensor.vector grid.entries)
      (.ofMeasure e.nextMeasure) .unit name =
        .ok { parameters := [p], coefficients := trapezoidWeights grid.entries,
              supports := [grid.entries], inner := [], label := .ofMeasure e.nextMeasure,
              weight := .unit, name } := by
    have hlength := length_trapezoidWeights (List.ne_nil_of_length_pos (by omega) :
      grid.entries ≠ [])
    unfold MeasureData.make? MeasureData.rows Tensor.vector
    simp [hlength, Label.isSelector, Label.ofMeasure, LabelKind.selects]
  unfold uniformMeasureData
  rw [query_bind_eq hq]
  dsimp only
  rw [pure_bind]
  -- what is left is to follow the operation from step to step
  refine (EStateM.bind_of_ok (onEnvironment_eq_ok hgenerated)).trans ?_
  dsimp only
  rw [hcoefficients]
  change check (MeasureData.make? [p] (trapezoidWeights grid.entries) (Tensor.vector grid.entries)
    (.ofMeasure e.nextMeasure) .unit name)
      ⟨{ e with nextMeasure := e.nextMeasure + 1 }, w.model⟩ = _
  rw [hmake]
  rfl

end Modeling

open Rounded

/-- Measure data on a grid in order integrate every function that is linear between neighbouring
supports, with any values at the supports. The coefficients are not negative and add up to the width
of the grid. -/
theorem integrated_of_generate {rule : ℕ → ℚ → ℚ} {w : Workspace (Rounded rule)} {p : Ref}
    {q : Parameter (Rounded rule)} (hq : w.model.parameter (.given p) = .ok q)
    {lower upper : Rounded rule} (hdomain : q.domain = .scalar (.interval lower upper)) {count : ℤ}
    (hcount : 2 ≤ count) (hdelivers : w.environment.Delivers .uniformGrid) {source : Option ℕ}
    {grid : Tensor (Rounded rule)} {label : Label} {e : Environment (Rounded rule)}
    (hgenerated : Generation.generate q.domain (some .uniformGrid) (some count) (some q.digits)
      source w.environment = .ok (grid, label) e)
    (hsorted : (grid.entries.map value).Pairwise (· ≤ ·)) (name : String) :
    let nodes := grid.entries.map value
    ∃ data w' first last,
      Modeling.uniformMeasureData p (some count) (some .uniformGrid) name source w =
        .ok data w' ∧
      data.parameters = [p] ∧ data.supports = [grid.entries] ∧
      data.coefficients.length = grid.entries.length ∧
      nodes.head? = some first ∧ nodes.getLast? = some last ∧
      (∀ f F : ℝ → ℝ, Interpolates f F nodes →
        quadrature f (data.coefficients.map value) nodes = ∫ x in first..last, F x) ∧
      (∀ f : ℝ → ℝ, ∃ F, Interpolates f F nodes) ∧
      (∀ c ∈ data.coefficients, 0 ≤ c) ∧
      (data.coefficients.map value).sum = last - first := by
  intro nodes
  obtain ⟨rfl, hlength⟩ := Generation.length_of_generate (.interval lower upper) hdelivers
    (by omega) (by decide) (hdomain ▸ hgenerated)
  have hseveral : 2 ≤ grid.entries.length := by
    dsimp only at hlength
    omega
  -- the integral runs from the first node to the last
  obtain ⟨first, rest, hnodes⟩ : ∃ first rest, nodes = first :: rest :=
    List.exists_cons_of_length_pos (by simp only [nodes, List.length_map]; omega)
  have hcoefficients : (trapezoidWeights grid.entries).map value =
      trapezoidCoefficients (first :: rest) := by
    rw [value_trapezoidWeights, ← hnodes]
  have hinorder : (first :: rest).Pairwise (· ≤ ·) := hnodes ▸ hsorted
  refine ⟨_, _, first, rest.getLastD first,
    Modeling.uniformMeasureData_of_generate hq hgenerated hseveral name, rfl, rfl, ?_, ?_, ?_,
    fun f F hF => ?_, fun f => ⟨_, interpolates_interpolant f hsorted⟩, fun c hc => ?_, ?_⟩
  · exact length_trapezoidWeights (List.ne_nil_of_length_pos (by omega))
  · rw [hnodes]
    rfl
  · rw [hnodes, List.getLast?_cons, List.getLastD_eq_getLast?]
  · rw [hcoefficients, hnodes]
    exact quadrature_trapezoidCoefficients hinorder (hnodes ▸ hF)
  · rw [← value_le, value_zero]
    exact trapezoidCoefficients_nonneg hinorder _ (hcoefficients ▸ List.mem_map_of_mem hc)
  · rw [hcoefficients]
    exact sum_trapezoidCoefficients hinorder

/-- Rounded to whole numbers, five supports from one to three are three different ones. -/
theorem integrated_of_generate_coincident :
    let rule : ℕ → ℚ → ℚ := fun _ x => ⌊x + 1 / 2⌋
    let lower : Rounded rule := ofRat 1
    let upper : Rounded rule := ofRat 3
    let q : Parameter (Rounded rule) :=
      { name := "t", domain := .scalar (.interval lower upper), digits := 1,
        method := .finiteDifference .backward, info := .none }
    let w : Workspace (Rounded rule) := ⟨{}, (Model.pushParameter { id := 0 } q).2⟩
    let p : Ref := ⟨0, .parameter, 1⟩
    let nodes : List (Rounded rule) := [1, 2, 2, 3, 3].map ofRat
    w.model.parameter (.given p) = .ok q ∧ (nodes.map value).Pairwise (· ≤ ·) ∧
      ∃ data w' first last,
        Modeling.uniformMeasureData p (some 5) (some .uniformGrid) "integral" (some 0) w =
          .ok data w' ∧
        data.supports = [nodes] ∧
        (∀ f F : ℝ → ℝ, Interpolates f F (nodes.map value) →
          quadrature f (data.coefficients.map value) (nodes.map value) =
            ∫ x in first..last, F x) ∧
        (data.coefficients.map value).sum = last - first := by
  intro rule lower upper q w p nodes
  have hq : w.model.parameter (.given p) = .ok q := rfl
  have hzero : ∀ digits, rule digits 0 = 0 := by
    intro digits
    simp only [rule]
    norm_num
  have hmono : ∀ digits, Monotone (rule digits) := by
    intro digits x y hxy
    simp only [rule]
    gcongr
  obtain ⟨grid, hgenerated, hsorted⟩ : ∃ grid, Generation.generate q.domain (some .uniformGrid)
      (some 5) (some 1) (some 0) w.environment = .ok (grid, .uniformGrid) w.environment ∧
        (grid.entries.map value).Pairwise (· ≤ ·) :=
    exists_generate_grid hzero hmono rfl (by decide +kernel) (by decide) (by decide) (by decide) rfl
  -- rounding makes two pairs of supports coincide
  have hnodes : Ends (Generation.generate q.domain (some .uniformGrid) (some 5) (some 1) (some 0))
      w.environment (fun found _ => found.1.entries = nodes) fun _ => False := by
    decide +kernel
  have hgrid : grid.entries = nodes := hnodes.of_ok hgenerated
  obtain ⟨data, w', first, last, hrun, -, hsupports, -, -, -, hexact, -, -, hsum⟩ :=
    integrated_of_generate hq rfl (by decide : (2 : ℤ) ≤ 5)
      (Environment.delivers_of_builtin rfl _) hgenerated hsorted "integral"
  rw [hgrid] at hsorted hsupports hexact
  exact ⟨hq, hsorted, data, w', first, last, hrun, hsupports, hexact, hsum⟩

end Discretization
