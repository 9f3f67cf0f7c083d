import Discretization.Proofs.Avoidance
import Discretization.Proofs.Registrations
import Discretization.Proofs.Sampling

/-!
# Generated Supports Are Accepted

The supports that a library generates for an interval are rounded before they are stored, and the
check of the bounds sees the rounded values. Grids and samples lie in the interval, and rounding
keeps order. So the check can only fail where a bound is itself rounded to a value outside, or where
a grid is too fine for its step to be computed well.

## Main definitions

* `Environment.Regular`: intervals have their own generators, and all sources, those of seeds
  included, give fractions;
* `Fits`: the rounded bounds of an interval do not leave it;
* `intervalMethod`: the method by which the supports of an interval are generated.

## Main results

* `Generation.ends_generate_interval`: what is generated for an interval lies inside;
* `accepted_of_fits`: no operation that stores generated supports fails for the bounds;
* `not_accepted_of_finite`: finite bounds are not enough for that.
-/

namespace Discretization

/-! ## Sources and generators -/

namespace Environment

variable {e : Environment Float}

/-- Intervals have the generators that are registered from the start, and all sources give
fractions, as those of a random number generator do. -/
structure Regular (e : Environment Float) : Prop where
  generators : ∀ label, e.generators.get? intervalKind label =
    GeneratorRegistry.builtin.get? intervalKind label
  sources : ∀ s ∈ e.sources, s.Fractional
  seeding : ∀ seed, (e.seeding seed).Fractional

theorem regular_default : ({} : Environment Float).Regular where
  generators _ := rfl
  sources := by simp
  seeding _ := fun x hx => by simp at hx

theorem Regular.of_eq {e' : Environment Float} (h : e.Regular)
    (hgenerators : e'.generators = e.generators) (hsources : e'.sources = e.sources)
    (hseeding : e'.seeding = e.seeding) : e'.Regular where
  generators := by rw [hgenerators]; exact h.generators
  sources := by rw [hsources]; exact h.sources
  seeding := by rw [hseeding]; exact h.seeding

/-- New sources are made from seeds, and these are fractional. -/
theorem ends_seededSource (h : e.Regular) (seed : Option ℤ) :
    Ends (seededSource seed) e (fun _ e' => e'.Regular) fun _ => True := by
  -- a new source is put after the others
  have hnew : ∀ {e : Environment Float}, e.Regular → ∀ seed,
      Ends (newSource (e.seeding seed)) e (fun _ e' => e'.Regular) fun _ => True := by
    intro e h seed
    simp only [newSource, ends_bind, ends_get, ends_modify, ends_pure]
    refine ⟨h.generators, fun s hs => ?_, h.seeding⟩
    rcases List.mem_append.1 hs with hs | hs
    · exact h.sources s hs
    · obtain rfl := List.mem_singleton.1 hs
      exact h.seeding seed
  unfold seededSource
  split
  · rw [ends_bind, ends_get]
    exact hnew h _
  · exact (ends_throw _).2 trivial
  · simp only [ends_bind, ends_get, ends_modify]
    exact hnew (e := { e with unseeded := e.unseeded + 1 }) (h.of_eq rfl rfl rfl) _

theorem ends_resolveSource (h : e.Regular) (source : Option ℕ) :
    Ends (resolveSource source) e (fun _ e' => e'.Regular) fun _ => source = none := by
  unfold resolveSource
  split
  · exact (ends_pure _).2 h
  · unfold sharedSource
    rw [ends_bind, ends_get]
    split
    · exact (ends_pure _).2 h
    · simp only [ends_bind, ends_get, Generation.ends_check]
      refine ⟨fun seed _ => ?_, fun _ _ => trivial⟩
      unfold seedShared
      rw [ends_bind]
      refine (ends_seededSource h _).mono (fun number e' h' => ?_) fun _ _ => trivial
      simp only [share, ends_bind, ends_modify, ends_pure]
      exact h'.of_eq rfl rfl rfl

end Environment

/-! ## Generated values -/

open Binary64

/-- An interval whose bounds, rounded to the digits of its supports, do not leave it. -/
structure Fits (lower upper : Float) (digits : ℤ) : Prop where
  ordered : lower ≤ upper
  finite_lower : Scalar.isFinite lower = true
  finite_upper : Scalar.isFinite upper = true
  finite_width : Scalar.isFinite (upper - lower) = true
  digits_pos : 1 ≤ digits
  lower_le : lower ≤ Scalar.roundSignificant digits.toNat lower
  le_upper : Scalar.roundSignificant digits.toNat upper ≤ upper

namespace Fits

variable {lower upper : Float} {digits : ℤ}

theorem span (h : Fits lower upper digits) : Span lower upper where
  finite_lower := isFinite_iff.1 h.finite_lower
  finite_upper := isFinite_iff.1 h.finite_upper
  le := key_le_of_le h.ordered
  width := isFinite_iff.1 h.finite_width

theorem inside_of_roundList (h : Fits lower upper digits) {xs ys : List Float}
    (hxs : ∀ x ∈ xs, Inside lower upper x) (hys : roundList digits xs = .ok ys) :
    ∀ y ∈ ys, Inside lower upper y := by
  intro y hy
  obtain ⟨x, hx, hround⟩ := exists_left_of_mem (roundList_eq_ok.1 hys).2 hy
  exact (hxs x hx).roundTo h.span h.digits_pos h.lower_le h.le_upper hround

/-- What was generated inside passes the check of an addition, which rounds it once more. -/
theorem checkBounds (h : Fits lower upper digits) {q : Parameter Float}
    (hq : q.domain = .scalar (.interval lower upper)) {ys : List Float}
    (hys : ∀ y ∈ ys, Inside lower upper y) : q.checkBounds ys = .ok () := by
  have hall : ys.filter (fun y => !Scalar.between lower upper y) = [] := by
    rw [List.filter_eq_nil_iff]
    intro y hy
    simp [(hys y hy).between h.span]
  unfold Parameter.checkBounds
  rw [hq]
  change (if (ys.filter fun y => !Scalar.between lower upper y).isEmpty then _ else _) = _
  rw [hall]
  rfl

end Fits

/-- The method by which the supports of an interval are generated, if a method is asked for or
not. -/
def intervalMethod : Option Label → Label
  | some label => if label.kind = .all then .uniformGrid else label
  | none => .uniformGrid

namespace Generation

open Environment

variable {lower upper : Float} {count digits : ℤ} {e : Environment Float}

/-- What is generated for an interval, with the numbers given. -/
theorem generate_interval (hcount : 1 ≤ count) (hdigits : 1 ≤ digits) (method : Option Label)
    (source : Option ℕ) :
    generate (.scalar (.interval lower upper)) method (some count) (some digits) source = (do
      let found ← lookup "IntervalDomain" intervalKind (some (intervalMethod method))
      let source ← resolveSource source
      let values ← ofScalar found.1 (.interval lower upper) found.2 count.toNat digits source
      return (values, found.2)) := by
  -- no method, or the selector of all, asks for the default of an interval, which is the grid
  have hgrid := generate_of_method hcount hdigits (by decide : Label.uniformGrid.kind ≠ .all)
    (.scalar (.interval lower upper)) source
  cases method with
  | none => exact (generate_of_default _ rfl (by decide) (by simp) _ _ _).trans hgrid
  | some label =>
    unfold intervalMethod
    by_cases hall : label.kind = .all
    · simp only [hall, if_true]
      exact (generate_of_default _ rfl (by decide) (by simpa using hall) _ _ _).trans hgrid
    · simp only [hall, if_false]
      exact generate_of_method hcount hdigits hall _ _

/-- Intervals have two generators. -/
theorem get?_builtin (label : Label) :
    (GeneratorRegistry.builtin : GeneratorRegistry Float).get? intervalKind label =
      if label = .uniformGrid then some .grid
      else if label = .monteCarlo then some .monteCarlo else none := by
  by_cases hgrid : label = .uniformGrid
  · subst hgrid
    rfl
  by_cases hsample : label = .monteCarlo
  · subst hsample
    rfl
  -- no row of the registry has an interval and another label
  have hnone : (GeneratorRegistry.builtin : GeneratorRegistry Float).find?
      (·.1 = (intervalKind, label)) = none := by
    simp [GeneratorRegistry.builtin, intervalKind, univariateKind, multivariateKind, collectionKind,
      Ne.symm hgrid, Ne.symm hsample]
  rw [if_neg hgrid, if_neg hsample, GeneratorRegistry.get?, hnone]
  rfl

theorem ends_lookup_interval (h : e.Regular) (label : Label) :
    Ends (lookup "IntervalDomain" intervalKind (some label)) e
      (fun found e' => e' = e ∧ found.2 = label ∧
        (label = .uniformGrid ∧ found.1 = .grid ∨ label = .monteCarlo ∧ found.1 = .monteCarlo))
      fun _ => label ≠ .uniformGrid ∧ label ≠ .monteCarlo := by
  unfold lookup
  rw [ends_bind, ends_get]
  dsimp only
  rw [Option.bind_some, h.generators, get?_builtin]
  by_cases hgrid : label = .uniformGrid
  · rw [if_pos hgrid]
    exact (ends_pure _).2 ⟨rfl, rfl, .inl ⟨hgrid, rfl⟩⟩
  by_cases hsample : label = .monteCarlo
  · rw [if_neg hgrid, if_pos hsample]
    exact (ends_pure _).2 ⟨rfl, rfl, .inr ⟨hsample, rfl⟩⟩
  · rw [if_neg hgrid, if_neg hsample]
    exact (ends_throw _).2 ⟨hgrid, hsample⟩

/-- Samples of an interval lie inside, and the source stays one of fractions. -/
theorem ends_uniform_inside (hs : Span lower upper) (he : e.Regular) (source n : ℕ) :
    Ends (uniform source lower upper n) e
      (fun xs _ => xs.length = n ∧ ∀ x ∈ xs, Inside lower upper x) fun _ => False := by
  -- a number that stands for no source yields no draws at all, which are fractions too
  have hsource : ((e.sources[source]?).getD (.replay [] 0)).Fractional := by
    cases hs : e.sources[source]? with
    | none => exact fun x hx => by simp at hx
    | some s => exact he.sources s (List.mem_of_getElem? hs)
  -- the width is finite, so the second branch of the source is not taken
  have hwidth : Scalar.isFinite (upper - lower) = true := isFinite_iff.2 hs.width
  unfold uniform drawing
  rw [ends_bind, ends_get, ends_bind, ends_check]
  constructor
  · rintro ⟨xs, s'⟩ hxs
    have hall := (hsource.uniform hs hxs).1
    dsimp only at hxs
    rw [Source.uniform, if_pos hwidth] at hxs
    cases hxs
    simp only [ends_bind, ends_modify, ends_pure]
    exact ⟨by rw [List.length_map, length_draw], hall⟩
  · intro error hfails
    dsimp only at hfails
    rw [Source.uniform, if_pos hwidth] at hfails
    cases hfails

/-- Digits are the only reason for which values cannot be rounded. -/
theorem lt_of_roundList {xs : List Float} {error : Error Float} (hdigits : 1 ≤ digits)
    (h : roundList digits xs = .error error) : greatestDigits < digits := by
  rw [roundList, if_neg (by omega)] at h
  obtain ⟨x, -, hx⟩ := Except.exists_of_mapM_eq_error h
  unfold roundTo at hx
  split at hx
  · cases hx
  · split at hx
    · omega
    · cases hx

/-- The values of an interval are generated inside. -/
theorem ends_ofScalar_interval (hf : Fits lower upper digits) (he : e.Regular)
    {generator : Generator Float} {n : ℕ}
    (hg : generator = .grid ∧ Coarse lower upper n ∨ generator = .monteCarlo) (method : Label)
    (source : ℕ) :
    Ends (ofScalar generator (.interval lower upper) method n digits source) e
      (fun t _ => t.entries.length = n ∧ ∀ x ∈ t.entries, Inside lower upper x)
      fun _ => greatestDigits < digits := by
  -- both generators round what they made, and that fails for the digits only
  have rounded : ∀ {e : Environment Float} {xs : List Float}, xs.length = n →
      (∀ x ∈ xs, Inside lower upper x) →
      Ends (EnvironmentAction.check ((Tensor.vector xs).round digits)) e
        (fun t _ => t.entries.length = n ∧ ∀ x ∈ t.entries, Inside lower upper x)
        fun _ => greatestDigits < digits := by
    intro e xs hlength hxs
    rw [ends_check]
    constructor
    · intro t ht
      obtain ⟨ys, hys, ht⟩ := Except.bind_eq_ok.1 ht
      cases ht
      exact ⟨(length_of_roundList hys).trans hlength, hf.inside_of_roundList hxs hys⟩
    · intro error hfails
      rcases Except.bind_eq_error.1 hfails with hfails | ⟨_, -, hfails⟩
      · exact lt_of_roundList hf.digits_pos hfails
      · cases hfails
  rcases hg with ⟨rfl, hcoarse⟩ | rfl
  · unfold ofScalar
    rw [ends_bind, ends_check]
    refine ⟨fun bounds hbounds => ?_, nofun⟩
    cases hbounds
    exact rounded (length_grid _ _ _) (hf.span.inside_grid hcoarse)
  · unfold ofScalar
    rw [ends_bind, ends_check]
    refine ⟨fun bounds hbounds => ?_, nofun⟩
    cases hbounds
    rw [ends_bind]
    refine (ends_uniform_inside hf.span he source n).mono ?_ fun _ => False.elim
    rintro xs e' ⟨hlength, hxs⟩
    exact rounded hlength hxs

theorem avoids_lookup {e : Environment Float} (typeName kind : String) (method : Option Label) :
    Avoids Error.IsOutOfBounds (lookup typeName kind method) e := by
  unfold lookup
  rw [avoids_get_bind]
  dsimp only
  split
  · exact avoids_pure _
  · exact (avoids_throw _).2 nofun

/-- Values are generated for an interval unless there is no generator, no source or no rounding, and
they lie inside. -/
theorem ends_generate_interval (hf : Fits lower upper digits) (hcount : 1 ≤ count)
    (he : e.Regular) {method : Option Label}
    (hcoarse : intervalMethod method = .uniformGrid → Coarse lower upper count.toNat)
    (source : Option ℕ) :
    Ends (generate (.scalar (.interval lower upper)) method (some count) (some digits) source) e
      (fun found _ => found.2 = intervalMethod method ∧ found.1.entries.length = count.toNat ∧
        ∀ x ∈ found.1.entries, Inside lower upper x)
      fun _ => (intervalMethod method ≠ .uniformGrid ∧ intervalMethod method ≠ .monteCarlo) ∨
        source = none ∨ greatestDigits < digits := by
  rw [generate_interval hcount hf.digits_pos, ends_bind]
  refine (ends_lookup_interval he (intervalMethod method)).mono ?_ fun _ h => .inl h
  rintro ⟨generator, label⟩ _ ⟨rfl, rfl, hgenerator⟩
  rw [ends_bind]
  refine (ends_resolveSource he source).mono (fun number e' he' => ?_) fun _ h => .inr (.inl h)
  -- only the grid needs a step that is zero or normal
  have hg : generator = .grid ∧ Coarse lower upper count.toNat ∨ generator = .monteCarlo :=
    hgenerator.imp (fun h => ⟨h.2, hcoarse h.1⟩) fun h => h.2
  rw [ends_bind]
  exact (ends_ofScalar_interval hf he' hg _ number).mono
    (fun t _ ht => (ends_pure _).2 ⟨rfl, ht⟩) fun _ h => .inr (.inr h)

theorem avoids_generate_interval (he : e.Regular) (hdigits : 1 ≤ digits) (hcount : 1 ≤ count)
    (method : Option Label) (source : Option ℕ) :
    Avoids Error.IsOutOfBounds
      (generate (.scalar (.interval lower upper)) method (some count) (some digits) source) e := by
  rw [generate_interval hcount hdigits]
  refine (avoids_lookup _ _ _).bind_of_ends (ends_lookup_interval he _) ?_
  rintro ⟨generator, label⟩ _ ⟨rfl, -, hgenerator⟩
  refine (avoids_resolveSource (·.not_isOutOfBounds) source).bind fun _ _ => ?_
  -- both generators of intervals are the library's own
  have hown : ∀ f, generator ≠ .custom f := by
    obtain ⟨-, rfl⟩ | ⟨-, rfl⟩ := hgenerator <;> exact fun f => nofun
  exact (avoids_ofScalar (·.not_isOutOfBounds) hown _ _ _ _ _).bind fun _ _ => avoids_pure _

end Generation

/-! ## Operations -/

namespace Store

open Operation

variable {lower upper : Float} {count digits : ℤ} {w : Workspace Float} {p : Ref}
  {q : Parameter Float}

/-- Supports that are generated for an interval can be added. -/
theorem avoids_generateAndAdd (hf : Fits lower upper digits) (hcount : 1 ≤ count)
    (he : w.environment.Regular) (hq : w.model.parameter (.given p) = .ok q)
    (hdomain : q.domain = .scalar (.interval lower upper)) (hdigits : q.digits = digits)
    {method : Option Label} {extra : Bool}
    (hcoarse : Coarse lower upper count.toNat ∨ method = some .monteCarlo ∨
      method = none ∧ extra = true)
    (source : Option ℕ) :
    Avoids Error.IsOutOfBounds (generateAndAdd p method (some count) extra source) w := by
  unfold generateAndAdd
  rw [avoids_query_bind]
  refine ⟨fun _ => Model.not_isOutOfBounds_parameter, fun q' hq' => ?_⟩
  obtain rfl : q = q' := Except.ok.inj (hq.symm.trans hq')
  rw [hdomain, hdigits]
  -- the grid is chosen by its name and by default, samples by their name only
  have grid : ∀ method' : Option Label, Coarse lower upper count.toNat ∨
      method' = some .monteCarlo → intervalMethod method' = .uniformGrid →
        Coarse lower upper count.toNat := by
    rintro method' (h | rfl) hgrid
    · exact h
    · exact absurd hgrid (by decide)
  have added : ∀ method' : Option Label, Coarse lower upper count.toNat ∨
      method' = some .monteCarlo → Avoids Error.IsOutOfBounds (do
        let (values, label) ← onEnvironment (Generation.generate
          (.scalar (.interval lower upper)) method' (some count) (some digits) source)
        add p values.entries (.given label) true) w := by
    intro method' hmethod
    have hends : Ends (onEnvironment (Generation.generate (.scalar (.interval lower upper)) method'
          (some count) (some digits) source)) w
        (fun found w' => w'.model = w.model ∧ ∀ x ∈ found.1.entries, Inside lower upper x)
        fun _ => True :=
      (ends_onEnvironment _).2 ((Generation.ends_generate_interval hf hcount he
        (grid method' hmethod) source).mono (fun _ _ h => ⟨rfl, h.2.2⟩) fun _ _ => trivial)
    refine Avoids.bind_of_ends ((avoids_onEnvironment _).2
      (Generation.avoids_generate_interval he hf.digits_pos hcount method' source)) hends ?_
    rintro ⟨values, label⟩ w' ⟨hmodel, hvalues⟩
    refine avoids_add (by rw [hmodel]; exact hq) fun rounded hrounded => ?_
    exact hf.checkBounds hdomain (hf.inside_of_roundList hvalues (hdigits ▸ hrounded))
  dsimp only at added ⊢
  apply added
  split
  · exact .inr rfl
  · rename_i hkind
    rcases hcoarse with h | h | ⟨rfl, rfl⟩
    · exact .inl h
    · exact .inr h
    · exact absurd rfl hkind

/-- A parameter over an interval can be filled in. -/
theorem avoids_fillIn (hf : Fits lower upper digits) (hcount : 1 ≤ count)
    (he : w.environment.Regular) (hq : w.model.parameter (.given p) = .ok q)
    (hdomain : q.domain = .scalar (.interval lower upper)) (hdigits : q.digits = digits)
    (hcoarse : Coarse lower upper count.toNat) {given : Option ℤ}
    (hgiven : given.getD w.environment.settings.defaultCount.1 = count) (extend : Bool)
    (source : Option ℕ) :
    Avoids Error.IsOutOfBounds (fillIn p given extend source) w := by
  have filled : ∀ w' : Workspace Float, w'.environment.Regular → w'.model = w.model →
      Avoids Error.IsOutOfBounds (do
        let current : Int := (← query (·.parameter (.given p))).supports.size
        if (extend || current = 0) && current < count then
          let _ ← generateAndAdd p none (some (count - current)) (0 < current) source) w' := by
    intro w' he' hmodel
    rw [avoids_query_bind, hmodel]
    refine ⟨fun _ => Model.not_isOutOfBounds_parameter, fun q' hq' => ?_⟩
    obtain rfl : q = q' := Except.ok.inj (hq.symm.trans hq')
    dsimp only
    rw [avoids_ite]
    refine ⟨fun hfill => Avoids.bind ?_ fun _ _ => avoids_pure _, fun _ => avoids_pure _⟩
    rw [Bool.and_eq_true, decide_eq_true_eq] at hfill
    -- only what is missing is generated
    have hmissing : 1 ≤ count - q.supports.size := by omega
    have hq' : w'.model.parameter (.given p) = .ok q := hmodel ▸ hq
    refine avoids_generateAndAdd hf hmissing he' hq' hdomain hdigits ?_ source
    -- the grid is used if there is no support, and then for the whole count
    rcases Nat.eq_zero_or_pos q.supports.size with hnone | hsome
    · rw [hnone, Nat.cast_zero, sub_zero]
      exact .inl hcoarse
    · exact .inr (.inr ⟨rfl, by simpa using hsome⟩)
  unfold fillIn
  cases given with
  | some given =>
    obtain rfl : given = count := hgiven
    exact filled w he rfl
  | none =>
    have hends : Ends (onEnvironment Environment.defaultCount) w
        (fun c w' => c = count ∧ w'.environment.Regular ∧ w'.model = w.model) fun _ => True := by
      rw [ends_onEnvironment]
      simp only [Environment.defaultCount, Environment.log, ends_bind, ends_get, ends_modify,
        ends_pure]
      exact ⟨hgiven, he.of_eq rfl rfl rfl, trivial⟩
    refine Avoids.bind_of_ends ((avoids_onEnvironment _).2 ?_) hends ?_
    · exact avoids_get.bind fun _ _ => (avoids_modify _).bind fun _ _ => avoids_pure _
    · rintro c w' ⟨rfl, he', hmodel⟩
      exact filled w' he' hmodel

end Store

namespace Modeling

open Operation

theorem avoids_addParameter {lower upper : Float} {count digits : ℤ} (hf : Fits lower upper digits)
    (hcount : 1 ≤ count) (hcoarse : Coarse lower upper count.toNat) {w : Workspace Float}
    (he : w.environment.Regular) (ht : w.model.parameters.WellFormed) (name : String)
    (method : DerivativeMethod) :
    Avoids Error.IsOutOfBounds
      (addParameter (.scalar (.interval lower upper)) name none count (some digits) method) w := by
  rw [addParameter_eq]
  simp only [Option.elim, pure_bind]
  unfold addParameterWith
  have hdigits := hf.digits_pos
  dsimp only
  rw [if_neg (by omega)]
  change Avoids _ (model >>= fun m => _) w
  rw [avoids_model_bind]
  -- the blank parameter is registered before its supports are generated
  have hpush : Ends (change fun m => pure (m.pushParameter (blankParameter w.model
        (.scalar (.interval lower upper)) name digits method))) w
      (fun p w' => w'.environment = w.environment ∧ w'.model.parameter (.given p) =
        .ok (blankParameter w.model (.scalar (.interval lower upper)) name digits method))
      fun _ => True := by
    rw [ends_change]
    refine ⟨fun p m hm => ?_, fun _ _ => trivial⟩
    cases hm
    exact ⟨rfl, Model.parameter_pushParameter ht _⟩
  refine Avoids.bind_of_ends ((avoids_change _).2 nofun) hpush ?_
  rintro p w' ⟨henvironment, hq⟩
  rw [avoids_ite]
  refine ⟨fun _ => Avoids.bind ?_ fun _ _ => avoids_pure _, fun _ => avoids_pure _⟩
  exact Store.avoids_fillIn hf hcount (henvironment ▸ he) hq rfl rfl hcoarse rfl true none

end Modeling

/-- All values that are generated for an interval lie inside, and no operation that stores them
fails for the bounds, if rounding does not take the bounds out of the interval. A grid must have a
step of zero or a normal double for that; samples need not. -/
theorem accepted_of_fits {lower upper : Float} {digits count : ℤ} (hf : Fits lower upper digits)
    (hcount : 1 ≤ count) {e : Environment Float} (he : e.Regular) :
    let domain : Domain Float := .scalar (.interval lower upper)
    let coarse := Coarse lower upper count.toNat
    (∀ method source, coarse ∨ method = some .monteCarlo →
      Ends (Generation.generate domain method (some count) (some digits) source) e
        (fun found _ => found.2 = intervalMethod method ∧ found.1.entries.length = count.toNat ∧
          ∀ x ∈ found.1.entries, Scalar.between lower upper x = true)
        fun _ => (intervalMethod method ≠ .uniformGrid ∧ intervalMethod method ≠ .monteCarlo) ∨
          source = none ∨ greatestDigits < digits) ∧
    (∀ m p q, m.parameter (.given p) = .ok q → q.domain = domain → q.digits = digits →
      (∀ method extra source, coarse ∨ method = some .monteCarlo →
        Avoids Error.IsOutOfBounds (Store.generateAndAdd p method (some count) extra source)
          ⟨e, m⟩) ∧
      ∀ given extend source, coarse → given.getD e.settings.defaultCount.1 = count →
        Avoids Error.IsOutOfBounds (Store.fillIn p given extend source) ⟨e, m⟩) ∧
    ∀ m name method, Requested m → coarse →
      Avoids Error.IsOutOfBounds
        (Modeling.addParameter domain name none count (some digits) method) ⟨e, m⟩ := by
  intro domain coarse
  refine ⟨fun method source hmethod => ?_, fun m p q hq hdomain hdigits => ⟨?_, ?_⟩, ?_⟩
  · -- a sampling method is not the grid, for which a coarse step is assumed
    have hgrid : intervalMethod method = .uniformGrid → coarse := by
      rcases hmethod with h | rfl
      · exact fun _ => h
      · exact fun h => absurd h (by decide)
    refine (Generation.ends_generate_interval hf hcount he hgrid source).mono ?_ fun _ h => h
    rintro found _ ⟨hlabel, hlength, hinside⟩
    exact ⟨hlabel, hlength, fun x hx => (hinside x hx).between hf.span⟩
  · intro method extra source hmethod
    exact Store.avoids_generateAndAdd (w := ⟨e, m⟩) hf hcount he hq hdomain hdigits
      (hmethod.imp_right .inl) source
  · intro given extend source hcoarse hgiven
    exact Store.avoids_fillIn (w := ⟨e, m⟩) hf hcount he hq hdomain hdigits hcoarse hgiven extend
      source
  · intro m name method hr hcoarse
    exact Modeling.avoids_addParameter (w := ⟨e, m⟩) hf hcount hcoarse he hr.intact.parameters name
      method

/-- Three equidistant values of an interval whose upper bound has one digit. -/
theorem accepted_of_fits_tenth :
    let domain : Domain Float := .scalar (.interval 0 0.1)
    let e : Environment Float := {}
    let m : Model Float := Request.replay { id := 0 }
      [.addParameter domain "t" none 0 (some 12) (.finiteDifference .backward)]
    let p : Ref := ⟨0, .parameter, 1⟩
    Fits 0 0.1 12 ∧ Coarse 0 0.1 3 ∧ e.Regular ∧ Requested m ∧
      (∃ found e', Generation.generate domain (some .uniformGrid) (some 3) (some 12) (some 0) e =
          .ok found e' ∧
        found.1.entries.length = 3 ∧ ∀ x ∈ found.1.entries, Scalar.between 0 0.1 x = true) ∧
      (∃ q, m.parameter (.given p) = .ok q ∧ q.domain = domain) ∧
      Avoids Error.IsOutOfBounds (Store.generateAndAdd p none (some 3) false none) ⟨e, m⟩ ∧
      Avoids Error.IsOutOfBounds (Store.fillIn p (some 3) false none) ⟨e, m⟩ ∧
      Avoids Error.IsOutOfBounds
        (Modeling.addParameter domain "s" none 3 (some 12) (.finiteDifference .backward))
        ⟨e, m⟩ := by
  intro domain e m p
  have hf : Fits 0 0.1 12 := by
    constructor <;> decide +kernel
  have hcoarse : Coarse 0 0.1 3 := by
    intro n hn
    obtain rfl : n = 1 := by omega
    decide +kernel
  have he : e.Regular := Environment.regular_default
  have hr : Requested m := .replay (.start 0 "model") _
  obtain ⟨hgenerates, hstores, hadds⟩ := accepted_of_fits hf (by decide : (1 : ℤ) ≤ 3) he
  obtain ⟨q, hq, hdomain, hdigits⟩ : ∃ q, m.parameter (.given p) = .ok q ∧ q.domain = domain ∧
      q.digits = 12 := ⟨_, rfl, rfl, rfl⟩
  obtain ⟨hgenerateAndAdd, hfillIn⟩ := hstores m p q hq hdomain hdigits
  refine ⟨hf, hcoarse, he, hr, ?_, ⟨q, hq, hdomain⟩, hgenerateAndAdd _ _ _ (.inl hcoarse),
    hfillIn (some 3) _ _ hcoarse rfl, hadds _ _ _ hr hcoarse⟩
  -- with a source given, nothing is left for which the generation could fail
  have hends : Ends (Generation.generate domain (some .uniformGrid) (some 3) (some 12) (some 0)) e
      (fun found _ => found.1.entries.length = 3 ∧
        ∀ x ∈ found.1.entries, Scalar.between 0 0.1 x = true) fun _ => False := by
    refine (hgenerates (some .uniformGrid) (some 0) (.inl hcoarse)).mono (fun _ _ h => h.2) ?_
    rintro _ (⟨h, -⟩ | h | h)
    · exact h rfl
    · cases h
    · exact absurd h (by decide)
  exact hends.exists_ok

/-- With twelve digits the upper bound of the interval from zero to the double nearest to the ratio
of a circle's circumference to its diameter is rounded up, so a new parameter cannot get it. -/
theorem not_accepted_of_finite :
    ¬ ∀ (lower upper : Float) (digits count : ℤ) (e : Environment Float) (m : Model Float)
      (name : String) (method : DerivativeMethod), lower ≤ upper →
        Scalar.isFinite lower = true → Scalar.isFinite upper = true →
        Scalar.isFinite (upper - lower) = true → 1 ≤ digits → 1 ≤ count → e.Regular →
        Requested m → Avoids Error.IsOutOfBounds
          (Modeling.addParameter (.scalar (.interval lower upper)) name none count (some digits)
            method) ⟨e, m⟩ := by
  intro hall
  let e : Environment Float := {}
  let m : Model Float := { id := 0, name := "model" }
  let method : DerivativeMethod := .finiteDifference .backward
  have hruns : (match Modeling.addParameter (.scalar (.interval 0 3.141592653589793)) "t" none 3
      (some 12) method ⟨e, m⟩ with
    | .error (.outOfBounds _ _ _ _) _ => true
    | _ => false) = true := by decide +kernel
  split at hruns
  · rename_i values name lower upper w' hrun
    refine hall 0 3.141592653589793 12 3 e m "t" method ?_ ?_ ?_ ?_ (by decide) (by decide)
      Environment.regular_default (.start 0 "model") _ _ hrun ⟨values, name, lower, upper, rfl⟩
    all_goals decide +kernel
  · cases hruns

end Discretization
