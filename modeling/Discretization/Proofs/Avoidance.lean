import Discretization.Proofs.Bounds
import Discretization.Proofs.Stores

/-!
# Errors That Are Not Raised

An operation can fail for several reasons. Which errors it does not raise is found out step by step:
a run avoids an error if each of its steps does where the steps before it left off.

The error of values outside a domain comes from one check. The look-ups, the rounding and the
changes around it do not raise it, so an addition avoids it as soon as its rounded values lie within
the bounds. A generator fails for a few causes only, so it avoids every error that is none of them.

## Main definitions

* `Avoids`: a run does not fail with an error of some kind;
* `Error.IsOutOfBounds`: the error of values outside their domain;
* `Error.OfGeneration`: the causes for which a generator fails.

## Main results

* `avoids_bind`: a sequence avoids an error if both parts do;
* `Generation.avoids_ofScalar`: a generator fails for these causes only;
* `Store.avoids_add`: an addition of values within the bounds does not fail for the bounds.
-/

namespace Discretization

/-! ## Errors that are not raised -/

section Rules

variable {ε σ β γ : Type} {bad : ε → Prop} {s : σ}

/-- If the run of a state transformer fails, then not with a bad error. -/
def Avoids (bad : ε → Prop) (x : EStateM ε σ β) (s : σ) : Prop :=
  ∀ e s', x s = .error e s' → ¬ bad e

@[simp]
theorem avoids_pure (b : β) : Avoids bad (pure b : EStateM ε σ β) s := nofun

@[simp]
theorem avoids_throw (e : ε) : Avoids bad (throw e : EStateM ε σ β) s ↔ ¬ bad e :=
  ⟨fun h => h e s rfl, fun h _ _ he => by cases he; exact h⟩

@[simp]
theorem avoids_get : Avoids bad (get : EStateM ε σ σ) s := nofun

@[simp]
theorem avoids_modify (f : σ → σ) : Avoids bad (modify f : EStateM ε σ PUnit) s := nofun

theorem avoids_bind {x : EStateM ε σ β} {f : β → EStateM ε σ γ} :
    Avoids bad (x >>= f) s ↔ Avoids bad x s ∧ ∀ b s', x s = .ok b s' → Avoids bad (f b) s' := by
  change (∀ e s', EStateM.bind x f s = .error e s' → ¬ bad e) ↔ _
  unfold EStateM.bind Avoids
  cases x s with
  | ok b s' => simp
  | error e s' => simp

theorem Avoids.bind {x : EStateM ε σ β} {f : β → EStateM ε σ γ} (hx : Avoids bad x s)
    (hf : ∀ b s', Avoids bad (f b) s') : Avoids bad (x >>= f) s :=
  avoids_bind.2 ⟨hx, fun b s' _ => hf b s'⟩

/-- What the first part is known to end in can be used for the second one. -/
theorem Avoids.bind_of_ends {ok : β → σ → Prop} {fail : σ → Prop} {x : EStateM ε σ β}
    {f : β → EStateM ε σ γ} (hx : Avoids bad x s) (h : Ends x s ok fail)
    (hf : ∀ b s', ok b s' → Avoids bad (f b) s') : Avoids bad (x >>= f) s :=
  avoids_bind.2 ⟨hx, fun b s' hb => hf b s' (h.of_ok hb)⟩

@[simp]
theorem avoids_throw_bind (e : ε) (f : β → EStateM ε σ γ) :
    Avoids bad (throw e >>= f) s ↔ ¬ bad e := by
  rw [avoids_bind, avoids_throw, and_iff_left]
  exact nofun

@[simp]
theorem avoids_get_bind (f : σ → EStateM ε σ β) :
    Avoids bad (get >>= f) s ↔ Avoids bad (f s) s := Iff.rfl

@[simp]
theorem avoids_ite {c : Prop} [Decidable c] (x y : EStateM ε σ β) :
    Avoids bad (if c then x else y) s ↔ (c → Avoids bad x s) ∧ (¬ c → Avoids bad y s) := by
  split <;> simp [*]

end Rules

section Operations

variable {α β γ : Type} {bad : Error α → Prop} {w : Workspace α}

open Operation

@[simp]
theorem avoids_environment_check {e : Environment α} (result : Except (Error α) β) :
    Avoids bad (EnvironmentAction.check result) e ↔
      ∀ error, result = .error error → ¬ bad error := by
  cases result <;> simp [EnvironmentAction.check]

@[simp]
theorem avoids_check_bind (result : Except (Error α) β) (f : β → Operation α γ) :
    Avoids bad (check result >>= f) w ↔ (∀ error, result = .error error → ¬ bad error) ∧
      ∀ b, result = .ok b → Avoids bad (f b) w := by
  cases result <;> simp [check]

@[simp]
theorem avoids_model_bind (f : Model α → Operation α β) :
    Avoids bad (model >>= f) w ↔ Avoids bad (f w.model) w := Iff.rfl

@[simp]
theorem avoids_query_bind (f : Model α → Except (Error α) β) (g : β → Operation α γ) :
    Avoids bad (query f >>= g) w ↔ (∀ error, f w.model = .error error → ¬ bad error) ∧
      ∀ b, f w.model = .ok b → Avoids bad (g b) w := by
  rw [query, bind_assoc, avoids_model_bind, avoids_check_bind]

@[simp]
theorem avoids_change (f : Model α → Except (Error α) (β × Model α)) :
    Avoids bad (change f) w ↔ ∀ error, f w.model = .error error → ¬ bad error := by
  rw [change, avoids_query_bind, and_iff_left]
  exact fun _ _ => (avoids_modify _).bind fun _ _ => avoids_pure _

@[simp]
theorem avoids_modifyModel (f : Model α → Model α) : Avoids bad (modifyModel f) w :=
  avoids_modify _

@[simp]
theorem avoids_modifyModel_bind (f : Model α → Model α) (g : Unit → Operation α β) :
    Avoids bad (modifyModel f >>= g) w ↔ Avoids bad (g ()) { w with model := f w.model } := Iff.rfl

@[simp]
theorem avoids_warn_bind (warning : Warning) (f : Unit → Operation α β) :
    Avoids bad (warn warning >>= f) w ↔ Avoids bad (f ()) (w.withWarning warning) := Iff.rfl

theorem avoids_onEnvironment (action : EnvironmentAction α β) :
    Avoids bad (onEnvironment action) w ↔ Avoids bad action w.environment := by
  unfold Avoids onEnvironment
  cases action w.environment <;> simp

end Operations

/-- The error of values outside their domain. -/
def Error.IsOutOfBounds {α : Type} (error : Error α) : Prop :=
  ∃ values name lower upper, error = .outOfBounds values name lower upper

/-! ## Generation -/

/-- The causes for which no supports are generated although there is a generator. -/
inductive Error.OfGeneration {α : Type} : Error α → Prop where
  | seed : OfGeneration .unusableSeed
  | bounds (kind : String) : OfGeneration (.noBounds kind)
  | width : OfGeneration .rangeOverflow
  | distribution : OfGeneration .noDistribution
  | shape : OfGeneration .unevenShape
  | parts : OfGeneration .noParts
  | rounding (digits : ℤ) : OfGeneration (.roundingDigits digits)
  | digits : OfGeneration .digitsOutOfRange

theorem Error.OfGeneration.not_isOutOfBounds {α : Type} {error : Error α} (h : error.OfGeneration) :
    ¬ error.IsOutOfBounds := by
  rintro ⟨values, name, lower, upper, rfl⟩
  cases h

section Generation

variable {α : Type} {e : Environment α} {bad : Error α → Prop}

open Environment Generation

theorem Error.ofGeneration_of_roundList [Scalar α] {error : Error α} {digits : ℤ} {xs : List α}
    (hfails : roundList digits xs = .error error) : error.OfGeneration := by
  unfold roundList at hfails
  split at hfails
  · cases hfails
    exact .rounding digits
  · obtain ⟨x, -, hx⟩ := Except.exists_of_mapM_eq_error hfails
    unfold roundTo at hx
    split at hx
    · cases hx
    · split at hx <;> cases hx
      exact .digits

variable (hbad : ∀ {error : Error α}, error.OfGeneration → ¬ bad error)

include hbad

theorem Environment.avoids_resolveSource (source : Option ℕ) :
    Avoids bad (resolveSource (α := α) source) e := by
  -- a source is made from a seed in two places
  have hseeded : ∀ seed (e : Environment α), Avoids bad (seededSource seed) e := by
    intro seed e
    unfold seededSource
    split
    · refine avoids_get.bind fun _ _ => avoids_get.bind fun _ _ => ?_
      exact (avoids_modify _).bind fun _ _ => avoids_pure _
    · exact (avoids_throw _).2 (hbad .seed)
    · refine avoids_get.bind fun _ _ => (avoids_modify _).bind fun _ _ => ?_
      refine avoids_get.bind fun _ _ => ?_
      exact avoids_get.bind fun _ _ => (avoids_modify _).bind fun _ _ => avoids_pure _
  unfold resolveSource
  split
  · exact avoids_pure _
  · unfold sharedSource
    rw [avoids_get_bind]
    split
    · exact avoids_pure _
    · rw [avoids_get_bind]
      refine Avoids.bind ((avoids_environment_check _).2 fun error herror => ?_) fun seed e =>
        (hseeded _ e).bind fun _ _ => (avoids_modify _).bind fun _ _ => avoids_pure _
      unfold Settings.seed? at herror
      dsimp only at herror
      split at herror
      · split at herror <;> cases herror
        exact hbad .seed
      · cases herror

variable [Scalar α]

theorem Environment.avoids_round (digits : ℤ) (t : Tensor α) :
    Avoids bad (EnvironmentAction.check (t.round digits)) e := by
  rw [avoids_environment_check]
  intro error hfails
  rcases Except.bind_eq_error.1 hfails with hfails | ⟨_, -, hfails⟩
  · exact hbad (Error.ofGeneration_of_roundList hfails)
  · cases hfails

theorem Environment.avoids_uniform (source : ℕ) (lower upper : α) (count : ℕ) :
    Avoids bad (uniform source lower upper count) e := by
  unfold uniform drawing
  refine avoids_get.bind fun _ _ => Avoids.bind ?_ fun _ _ =>
    (avoids_modify _).bind fun _ _ => avoids_pure _
  rw [avoids_environment_check]
  intro error hfails
  unfold Source.uniform at hfails
  split at hfails <;> cases hfails
  exact hbad .width

theorem Environment.avoids_sample (d : Distribution α) (count source : ℕ) :
    Avoids bad (sample d count source) e := by
  unfold sample
  split
  · exact avoids_get.bind fun _ _ => (avoids_modify _).bind fun _ _ => avoids_pure _
  · exact (avoids_uniform hbad _ _ _ _).bind fun _ _ => avoids_pure _

theorem Generation.avoids_univariate (d : Option (Distribution α)) (count : ℕ) (digits : ℤ)
    (source : ℕ) : Avoids bad (univariate d count digits source) e := by
  unfold univariate
  split
  · exact (avoids_throw _).2 (hbad .distribution)
  · refine (avoids_sample hbad _ _ _).bind fun _ _ => ?_
    dsimp only
    rw [avoids_ite, avoids_throw_bind]
    exact ⟨fun _ => hbad .shape, fun _ => avoids_round hbad _ _⟩

theorem Generation.avoids_multivariate (d : Option (Distribution α)) (count : ℕ) (digits : ℤ)
    (source : ℕ) : Avoids bad (multivariate d count digits source) e := by
  unfold multivariate
  split
  · exact (avoids_throw _).2 (hbad .distribution)
  · refine (avoids_sample hbad _ _ _).bind fun _ _ => ?_
    dsimp only
    rw [avoids_ite, avoids_throw_bind]
    exact ⟨fun _ => hbad .shape, fun _ => avoids_round hbad _ _⟩

/-- What a generator that the library brings along fails for on a scalar domain. -/
theorem Generation.avoids_ofScalar {generator : Generator α}
    (hgenerator : ∀ f, generator ≠ .custom f) (domain : ScalarDomain α) (method : Label)
    (count : ℕ) (digits : ℤ) (source : ℕ) :
    Avoids bad (ofScalar generator domain method count digits source) e := by
  -- the first three generators ask the domain for its bounds
  have hbounds : ∀ {e : Environment α},
      Avoids bad (EnvironmentAction.check domain.bounds) e := by
    intro e
    rw [avoids_environment_check]
    intro error hfails
    unfold ScalarDomain.bounds at hfails
    split at hfails <;> cases hfails <;> exact hbad (.bounds _)
  cases generator with
  | grid => exact hbounds.bind fun _ _ => avoids_round hbad _ _
  | monteCarlo =>
    exact hbounds.bind fun _ _ =>
      (avoids_uniform hbad _ _ _ _).bind fun _ _ => avoids_round hbad _ _
  | samples => exact avoids_univariate hbad _ _ _ _
  | unweightedSamples =>
    refine Avoids.bind (avoids_get.bind fun e _ => ?_) fun _ _ => avoids_univariate hbad _ _ _ _
    split
    · exact avoids_pure _
    · exact (avoids_modify _).bind fun _ _ => avoids_modify _
  | columns => exact avoids_multivariate hbad _ _ _ _
  | parts => exact (avoids_throw _).2 (hbad .parts)
  | custom f => exact absurd rfl (hgenerator f)

end Generation

/-! ## Additions -/

variable {α : Type} {error : Error α}

theorem Model.not_isOutOfBounds_parameter {m : Model α} {h : Handle}
    (hfails : m.parameter h = .error error) : ¬ error.IsOutOfBounds := by
  rcases Except.bind_eq_error.1 hfails with hfails | ⟨ref, -, hfails⟩
  · rcases Except.bind_eq_error.1 hfails with hfails | ⟨ref, -, hfails⟩
    · unfold Model.owned at hfails
      split at hfails
      · split at hfails
        · cases hfails
        · cases hfails
          exact nofun
      · cases hfails
        exact nofun
    · split at hfails
      · cases hfails
      · cases hfails
        exact nofun
  · split at hfails
    · cases hfails
    · cases hfails
      exact nofun

theorem not_isOutOfBounds_label {info : GenerativeInfo α} (hfails : info.label = .error error) :
    ¬ error.IsOutOfBounds := by
  cases info <;> cases hfails
  exact nofun

theorem not_isOutOfBounds_storable {label : Argument Label}
    (hfails : Label.storable label = .error error) : ¬ error.IsOutOfBounds := by
  unfold Label.storable at hfails
  split at hfails
  · split at hfails
    · cases hfails
      exact nofun
    · cases hfails
  · cases hfails
    exact nofun

variable [Scalar α]

theorem not_isOutOfBounds_roundList {digits : ℤ} {xs : List α}
    (hfails : roundList digits xs = .error error) : ¬ error.IsOutOfBounds :=
  (Error.ofGeneration_of_roundList hfails).not_isOutOfBounds

namespace Store

open Operation

variable {w : Workspace α}

omit [Scalar α] in
theorem avoids_resetEquations (p : Ref) : Avoids Error.IsOutOfBounds (resetEquations p) w := by
  unfold resetEquations
  rw [avoids_query_bind]
  refine ⟨fun _ => Model.not_isOutOfBounds_parameter, fun q _ => ?_⟩
  simp

theorem avoids_delete (p : Ref) (label : Label) :
    Avoids Error.IsOutOfBounds (delete p label) w := by
  unfold delete
  rw [avoids_query_bind]
  refine ⟨fun _ => Model.not_isOutOfBounds_parameter, fun q _ => ?_⟩
  have hmissing : ∀ (value : α), ¬ (Error.missingKey value).IsOutOfBounds := fun _ => nofun
  -- all supports are deleted at once, any other label is stripped value by value
  by_cases hl : label = .all
  · simp [hl, Error.IsOutOfBounds]
  simp only [hl, if_false, avoids_model_bind, avoids_ite, avoids_warn_bind,
    avoids_modifyModel_bind, avoids_check_bind]
  constructor
  all_goals
    refine fun _ => ⟨fun _ => not_isOutOfBounds_label, fun derived _ => ?_⟩
    split <;> simp [hmissing]

theorem avoids_resetGenerative (p : Ref) : Avoids Error.IsOutOfBounds (resetGenerative p) w := by
  unfold resetGenerative
  rw [avoids_query_bind]
  refine ⟨fun _ => Model.not_isOutOfBounds_parameter, fun q _ => ?_⟩
  rw [avoids_ite, avoids_check_bind]
  refine ⟨fun _ => ⟨fun _ => not_isOutOfBounds_label, fun label _ => avoids_delete p label⟩,
    fun _ => avoids_pure _⟩

/-- An addition does not fail for the bounds if the rounded values lie between them. -/
theorem avoids_add {p : Ref} {q : Parameter α} {values : List α} {label : Argument Label}
    (hq : w.model.parameter (.given p) = .ok q)
    (hinside : ∀ rounded, roundList q.digits values = .ok rounded →
      q.checkBounds rounded = .ok ()) :
    Avoids Error.IsOutOfBounds (add p values label true) w := by
  unfold add
  rw [avoids_query_bind]
  refine ⟨fun _ => Model.not_isOutOfBounds_parameter, fun q' hq' => ?_⟩
  obtain rfl : q = q' := Except.ok.inj (hq.symm.trans hq')
  rw [avoids_check_bind]
  refine ⟨fun _ => not_isOutOfBounds_storable, fun label _ => ?_⟩
  rw [avoids_check_bind]
  refine ⟨fun _ => not_isOutOfBounds_roundList, fun rounded hrounded => ?_⟩
  dsimp only
  rw [if_pos rfl, avoids_check_bind]
  refine ⟨fun error herror => ?_, fun _ _ => ?_⟩
  · rw [hinside rounded hrounded] at herror
    cases herror
  -- what comes after the insertion looks the parameter up again and deletes
  rw [avoids_modifyModel_bind, avoids_ite]
  refine ⟨fun _ => ?_, fun _ => avoids_pure _⟩
  exact (avoids_resetEquations p).bind fun _ _ => (avoids_resetGenerative p).bind fun _ _ =>
    (avoids_modifyModel _).bind fun _ _ => avoids_pure _

end Store

end Discretization
