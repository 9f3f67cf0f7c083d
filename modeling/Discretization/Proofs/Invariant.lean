import Discretization.Proofs.Generators
import Discretization.Proofs.Supports
import Discretization.Transcription.Builder

/-!
# The Invariant of Models

What holds of a model whatever operations made it, failed ones included. A model is *sound* if its
objects fit together: references point at live objects, defined supports are in order, and stored
equations refer to stored supports. A model that is *ready* was transcribed from a prepared model
with the same grid: the same objects, and the same supports of every parameter that something
depends on.

Undefined supports spoil readiness, because taking labels off such a support fails halfway, so that
part of the invariant is stated for models without such supports on their grid: on the parameters
that something depends on. They do not vanish there unless the model becomes stale.

## Main definitions

* `Model.Sound`: the objects of the model fit together;
* `Model.SameGrid`: two models that are transcribed alike;
* `Model.Prepared`: the supports are ready for a transcription;
* `Model.ReadySound`: a ready model has the grid of the model that was transcribed;
* `Model.GridDefined`: no undefined supports on the grid;
* `Model.Inv`: the invariant.

## Main results

* `Model.Sound.alter`, `Model.Inv.alter`: when a change around one parameter keeps the invariant.
-/

namespace Discretization

variable {α : Type}

/-- The rows of measure data belong to its parameters, one row each, and are as long as the points
and their axes ask for. -/
structure MeasureData.WellShaped (data : MeasureData α) : Prop where
  rows : data.supports.length = data.parameters.length
  columns : ∀ row ∈ data.supports, row.length = data.coefficients.length * data.inner.prod

/-- The terms of an equation are those of a derivative and its variable at the given values. -/
def Equation.FitsOn (e : Equation α) (derivative variableRef : Ref) (values : List α) : Prop :=
  ∀ term ∈ e.terms, (term.ref = derivative ∨ term.ref = variableRef) ∧ term.value ∈ values

variable [Scalar α]

/-- A parameter over a scalar domain whose supports are in order if they are defined. Derived
supports are in place only beside others, and under a label that can be stored. -/
structure Parameter.Sound (q : Parameter α) : Prop where
  scalar : ∃ domain, q.domain = .scalar domain
  ordered : (∀ x ∈ q.supports.values, Scalar.Defined x) → Increasing q.supports.values
  derived : q.hasGenerative = true → ∃ basis label, q.info = .uniform basis label ∧
    label.isSelector = false ∧ q.supports.supports ≠ []

omit [Scalar α] in
/-- Derived supports have another label. -/
def Parameter.Apart (q : Parameter α) (label : Label) : Prop :=
  ∀ basis derived, q.info = .uniform basis derived → derived ≠ label

namespace Model

/-- The parameters of a variable are live, and none is repeated. -/
def FitsInfinite (m : Model α) (v : InfiniteVariable α) : Prop :=
  v.parameters.Nodup ∧ ∀ p ∈ v.parameters, ∃ q, m.parameter (.given p) = .ok q

/-- A point variable has one value for each parameter of its variable, rounded to its digits. -/
def FitsPoint (m : Model α) (v : PointVariable α) : Prop :=
  ∃ name parameters, m.indexed v.ref = .ok (name, parameters) ∧
    v.values.length = parameters.length ∧
    ∀ p x, (p, x) ∈ parameters.zip v.values → ∀ q, m.parameter (.given p) = .ok q →
      roundList q.digits [x] = .ok [x]

/-- Some infinite variable depends on the parameter. -/
def Underlies (m : Model α) (p : Ref) : Prop :=
  ∃ i v, m.infiniteVariables.get? i = some v ∧ p ∈ v.parameters

/-- A measure is not one of a parameter, and the measured parameters are live and underlie infinite
variables. -/
def FitsMeasure (m : Model α) (μ : Measure α) : Prop :=
  μ.function.kind ≠ .parameter ∧ μ.data.WellShaped ∧
    ∀ p ∈ μ.data.parameters, (∃ q, m.parameter (.given p) = .ok q) ∧ m.Underlies p

/-- The objects of the model fit together. -/
structure Sound (m : Model α) : Prop where
  parameters : m.parameters.WellFormed
  infiniteVariables : m.infiniteVariables.WellFormed
  finiteVariables : m.finiteVariables.WellFormed
  pointVariables : m.pointVariables.WellFormed
  derivatives : m.derivatives.WellFormed
  measures : m.measures.WellFormed
  constraints : m.constraints.WellFormed
  parameter : ∀ p q, m.parameter (.given p) = .ok q → q.Sound
  infinite : ∀ i v, m.infiniteVariables.get? i = some v → m.FitsInfinite v
  /-- A derivative has the parameters of its variable, and in the end of an infinite variable. -/
  derivative : ∀ i d, m.derivatives.get? i = some d → d.parameter ∈ d.parameters ∧
    (∃ name, m.indexed d.ref = .ok (name, d.parameters)) ∧
    ∃ j v, m.infiniteVariables.get? j = some v ∧ v.parameters = d.parameters
  point : ∀ i v, m.pointVariables.get? i = some v → m.FitsPoint v
  measure : ∀ i μ, m.measures.get? i = some μ → m.FitsMeasure μ
  /-- Only live derivatives have stored equations. -/
  stored : ∀ i equations, m.equations? i = some equations → ∃ d, m.derivatives.get? i = some d
  /-- Stored equations refer to supports that are stored. -/
  equations : ∀ i d equations, m.derivatives.get? i = some d → m.equations? i = some equations →
    ∃ q, m.parameter (.given d.parameter) = .ok q ∧ q.hasEquations = true ∧
      ∀ e ∈ equations, e.FitsOn ⟨m.id, .derivative, i⟩ d.ref q.supports.values

/-- No derivative with respect to the parameter has stored equations. -/
def Unevaluated (m : Model α) (p : Ref) : Prop :=
  ∀ d ∈ m.derivativesOf p, m.equations? d.index = none

/-- The supports of a parameter are defined. -/
def DefinedAt (m : Model α) (p : Ref) : Prop :=
  ∀ q, m.parameter (.given p) = .ok q → ∀ x ∈ q.supports.values, Scalar.Defined x

/-- The supports of the parameters that something depends on are defined. -/
def GridDefined (m : Model α) : Prop :=
  ∀ p, m.isUsed p = true → m.DefinedAt p

/-- All supports of the model are defined. -/
def Defined (m : Model α) : Prop :=
  ∀ p q, m.parameter (.given p) = .ok q → ∀ x ∈ q.supports.values, Scalar.Defined x

/-- Whether all supports of the model equal themselves. -/
def allDefined (m : Model α) : Bool :=
  m.parameters.objects.all fun q => q.supports.values.all fun x => x == x

theorem Defined.of_exact [ExactScalar α] (m : Model α) : m.Defined :=
  fun _ _ _ _ _ => ExactScalar.defined _

theorem Defined.gridDefined {m : Model α} (h : m.Defined) : m.GridDefined :=
  fun p _ => h p

theorem definedAt_iff {m : Model α} {p : Ref} {q : Parameter α}
    (hq : m.parameter (.given p) = .ok q) :
    m.DefinedAt p ↔ ∀ x ∈ q.supports.values, Scalar.Defined x := by
  simp [DefinedAt, hq]

theorem defined_of_allDefined {m : Model α} (h : m.allDefined = true) : m.Defined := by
  intro p q hq x hx
  have hmem := Table.mem_objects_of_get? (parameter_eq_ok.1 hq).2.2
  exact List.all_eq_true.1 (List.all_eq_true.1 h q hmem) x hx

omit [Scalar α] in
/-- Two models that are transcribed alike: they have the same objects, parameters that something
depends on have the same supports, and derivatives the same stored equations. Derived supports that
are in place stay in place. -/
structure SameGrid (m m' : Model α) : Prop where
  objects : SameObjects m m'
  digits : ∀ p q, m.parameter (.given p) = .ok q →
    ∃ q', m'.parameter (.given p) = .ok q' ∧ q'.digits = q.digits
  used : ∀ p q q', m.isUsed p = true → m.parameter (.given p) = .ok q →
    m'.parameter (.given p) = .ok q' → q'.supports.values = q.supports.values ∧
      q'.info = q.info ∧ (q.hasGenerative = true → q'.hasGenerative = true)
  equations : ∀ ref ∈ m.liveRefs .derivative, m'.equations? ref.index = m.equations? ref.index

/-- No point variable and no measure stores its supports under the label of derived supports of one
of its parameters. -/
structure LabelsApart (m : Model α) : Prop where
  points : ∀ ref v, m.pointVariable ref = .ok v → ∀ name parameters,
    m.indexed v.ref = .ok (name, parameters) → ∀ p ∈ parameters, ∀ q,
      m.parameter (.given p) = .ok q → q.Apart .userDefined
  measures : ∀ ref μ, m.measure ref = .ok μ → ∀ p ∈ μ.data.parameters, ∀ q,
    m.parameter (.given p) = .ok q → q.Apart μ.data.label

/-- The values of point variables and the rounded supports of measures are supports of their
parameters. -/
structure OnGrid (m : Model α) : Prop where
  points : ∀ ref v, m.pointVariable ref = .ok v → ∀ name parameters,
    m.indexed v.ref = .ok (name, parameters) → ∀ p x, (p, x) ∈ parameters.zip v.values → ∀ q,
      m.parameter (.given p) = .ok q → q.supports.contains x = true
  measures : ∀ ref μ, m.measure ref = .ok μ → ∀ p row,
    (p, row) ∈ μ.data.parameters.zip μ.data.supports → ∀ q, m.parameter (.given p) = .ok q →
      ∀ x ∈ row, ∀ rounded, roundTo q.digits x = .ok rounded → q.supports.contains rounded = true

omit [Scalar α] in
/-- Derived supports are in place where they are asked for. -/
def Derived (m : Model α) : Prop :=
  ∀ p q, m.parameter (.given p) = .ok q → q.hasGenerative = true ∨ q.info = .none

omit [Scalar α] in
/-- Every parameter that something depends on has supports. -/
def Stocked (m : Model α) : Prop :=
  ∀ p q, m.isUsed p = true → m.parameter (.given p) = .ok q → q.supports.supports ≠ []

/-- The supports are ready for a transcription: derived supports are in place, derivatives have
equations, and nothing lies beside the grid as long as labels are kept apart. No parameter of the
grid is without supports then, if missing ones could be generated. -/
structure Prepared (m : Model α) (full : Prop) : Prop where
  derived : m.Derived
  evaluated : ∀ ref ∈ m.liveRefs .derivative, ∃ equations, m.equations? ref.index = some equations
  stored : m.LabelsApart → m.OnGrid ∧ (full → m.Stocked)

/-- A ready model has the transcription of a prepared model with the same grid. -/
def ReadySound (m : Model α) (full : Prop) : Prop :=
  m.ready = true → ∃ (built : Model α) (t : Transcription α), m.transcription = some t ∧
    built.transcribe t.verbose = .ok t ∧ built.Sound ∧ built.Prepared full ∧ built.SameGrid m

/-- The invariant: the objects fit together, and a ready model without undefined supports on its
grid has the grid that was transcribed. Whether missing supports could be generated all along is
left open. -/
structure Inv (m : Model α) (full : Prop) : Prop where
  sound : m.Sound
  ready : m.GridDefined → m.ReadySound full

variable {m m' m'' : Model α} {p : Ref} {q q' : Parameter α} {full : Prop}

namespace SameGrid

omit [Scalar α] in
theorem refl (m : Model α) : SameGrid m m where
  objects := .refl m
  digits _ q hq := ⟨q, hq, rfl⟩
  used _ _ _ _ hq hq' := by
    rw [hq] at hq'
    cases hq'
    exact ⟨rfl, rfl, fun h => h⟩
  equations _ _ := rfl

omit [Scalar α] in
theorem trans (h : SameGrid m m') (h' : SameGrid m' m'') : SameGrid m m'' where
  objects := h.objects.trans h'.objects
  digits p q hq := by
    obtain ⟨q₁, hq₁, hd₁⟩ := h.digits p q hq
    obtain ⟨q₂, hq₂, hd₂⟩ := h'.digits p q₁ hq₁
    exact ⟨q₂, hq₂, hd₂.trans hd₁⟩
  used p q q₂ hu hq hq₂ := by
    obtain ⟨q₁, hq₁, -⟩ := h.digits p q hq
    obtain ⟨hv, hi, hg⟩ := h.used p q q₁ hu hq hq₁
    obtain ⟨hv', hi', hg'⟩ := h'.used p q₁ q₂ (by rwa [h.objects.isUsed]) hq₁ hq₂
    exact ⟨hv'.trans hv, hi'.trans hi, hg' ∘ hg⟩
  equations ref href :=
    (h'.equations ref (by rwa [h.objects.liveRefs])).trans (h.equations ref href)

end SameGrid

/-! ## Changes around one parameter -/

omit [Scalar α] in
/-- The derivatives with respect to a parameter, by their indices. -/
theorem mem_derivativesOf (hd : m.derivatives.WellFormed) {i : Int} {d : Derivative}
    (h : m.derivatives.get? i = some d) :
    (∃ d' ∈ m.derivativesOf p, d'.index = i) ↔ d.parameter = p := by
  simp only [derivativesOf, List.mem_map, List.mem_filter, decide_eq_true_eq]
  constructor
  · rintro ⟨_, ⟨⟨n, d'⟩, ⟨hmem, hp⟩, rfl⟩, hi⟩
    have hfound := Table.get?_of_mem_rows hd hmem
    rw [show (n : Int) = i from hi, h] at hfound
    cases hfound
    exact hp
  · intro hp
    obtain ⟨n, rfl, hmem⟩ := Table.mem_rows_of_get? h
    exact ⟨_, ⟨(n, d), ⟨hmem, hp⟩, rfl⟩, rfl⟩

omit [Scalar α] in
/-- References to two parameters of a model differ in their index. -/
theorem index_ne (hq : m.parameter (.given p) = .ok q) {p₁ : Ref} {q₁ : Parameter α}
    (hq₁ : m.parameter (.given p₁) = .ok q₁) (hp : p₁ ≠ p) : p₁.index ≠ p.index := by
  intro hindex
  obtain ⟨hid, hk, -⟩ := parameter_eq_ok.1 hq
  obtain ⟨hid₁, hk₁, -⟩ := parameter_eq_ok.1 hq₁
  refine hp ?_
  cases p
  cases p₁
  simp_all

/-- A change around one parameter keeps the objects fitting together, if the parameter is still
sound and the stored equations about it refer to its supports. -/
theorem Sound.alter_of_fits (h : m.Sound) (ht : m.Alters p m')
    (hq : m.parameter (.given p) = .ok q) (hq' : m'.parameter (.given p) = .ok q') (hs : q'.Sound)
    (hfits : ∀ i d equations, m.derivatives.get? i = some d → d.parameter = p →
      m'.equations? i = some equations → q'.hasEquations = true ∧
        ∀ e ∈ equations, e.FitsOn ⟨m.id, .derivative, i⟩ d.ref q'.supports.values) : m'.Sound where
  parameters := ht.objects.wellFormed h.parameters
  infiniteVariables := by rw [ht.objects.infiniteVariables]; exact h.infiniteVariables
  finiteVariables := by rw [ht.objects.finiteVariables]; exact h.finiteVariables
  pointVariables := by rw [ht.objects.pointVariables]; exact h.pointVariables
  derivatives := by rw [ht.objects.derivatives]; exact h.derivatives
  measures := by rw [ht.objects.measures]; exact h.measures
  constraints := by rw [ht.objects.constraints]; exact h.constraints
  parameter p₁ q₁ hq₁ := by
    by_cases hp : p₁.index = p.index
    · obtain ⟨-, -, hg⟩ := parameter_eq_ok.1 hq'
      obtain ⟨-, -, hg₁⟩ := parameter_eq_ok.1 hq₁
      rw [hp, hg] at hg₁
      cases hg₁
      exact hs
    · exact h.parameter p₁ q₁ ((ht.parameter_of_ne hp).1 hq₁)
  infinite i v hv := by
    rw [ht.objects.infiniteVariables] at hv
    obtain ⟨hnodup, hlive⟩ := h.infinite i v hv
    refine ⟨hnodup, fun p₁ hp₁ => ?_⟩
    obtain ⟨q₁, hq₁⟩ := hlive p₁ hp₁
    exact ht.objects.parameter hq₁
  derivative i d hd := by
    rw [ht.objects.derivatives] at hd
    obtain ⟨hp, ⟨name, hname⟩, hvar⟩ := h.derivative i d hd
    exact ⟨hp, ⟨name, ht.objects.indexed.2 hname⟩, by rwa [ht.objects.infiniteVariables]⟩
  point i v hv := by
    rw [ht.objects.pointVariables] at hv
    obtain ⟨name, parameters, hindexed, hlength, hround⟩ := h.point i v hv
    refine ⟨name, parameters, ht.objects.indexed.2 hindexed, hlength, fun p₁ x hx q₁ hq₁ => ?_⟩
    obtain ⟨q₀, hq₀⟩ := ht.objects.symm.parameter hq₁
    obtain ⟨q₂, hq₂, hdigits, -⟩ := ht.parameter hq₀
    rw [hq₁] at hq₂
    cases hq₂
    rw [hdigits]
    exact hround p₁ x hx q₀ hq₀
  measure i μ hμ := by
    rw [ht.objects.measures] at hμ
    obtain ⟨hkind, hshape, hlive⟩ := h.measure i μ hμ
    refine ⟨hkind, hshape, fun p₁ hp₁ => ?_⟩
    obtain ⟨⟨q₁, hq₁⟩, hunderlies⟩ := hlive p₁ hp₁
    exact ⟨ht.objects.parameter hq₁, by rwa [Underlies, ht.objects.infiniteVariables]⟩
  stored i equations hi := by
    rw [ht.objects.derivatives]
    by_cases hderived : ∃ d ∈ m.derivativesOf p, d.index = i
    · obtain ⟨_, hmem, rfl⟩ := hderived
      obtain ⟨⟨n, d⟩, hrow, rfl⟩ := List.mem_map.1 hmem
      exact ⟨d, Table.get?_of_mem_rows h.derivatives (List.mem_filter.1 hrow).1⟩
    · refine h.stored i equations ?_
      rwa [← ht.equations i fun d hd hdi => hderived ⟨d, hd, hdi⟩]
  equations i d equations hd hi := by
    rw [ht.objects.derivatives] at hd
    by_cases hp : d.parameter = p
    · rw [ht.objects.id]
      exact ⟨q', by rw [hp]; exact hq', hfits i d equations hd hp hi⟩
    · -- the equations and the supports of another parameter are untouched
      have hsame := ht.equations i fun d' hd' hindex =>
        hp ((mem_derivativesOf h.derivatives hd).1 ⟨d', hd', hindex⟩)
      rw [hsame] at hi
      obtain ⟨q₁, hq₁, hstored, hfits⟩ := h.equations i d equations hd hi
      have hindex := index_ne hq hq₁ hp
      exact ⟨q₁, (ht.parameter_of_ne hindex).2 hq₁, hstored, by rwa [ht.objects.id]⟩

/-- A change around one parameter keeps the objects fitting together, if the parameter is still
sound, and if its stored equations are either kept beside the supports they refer to or dropped. -/
theorem Sound.alter (h : m.Sound) (ht : m.Alters p m') (hq : m.parameter (.given p) = .ok q)
    (hq' : m'.parameter (.given p) = .ok q') (hs : q'.Sound)
    (heq : (q.supports.values ⊆ q'.supports.values ∧
        (q.hasEquations = true → q'.hasEquations = true) ∧
        ∀ i, m'.equations? i = m.equations? i) ∨
      m'.Unevaluated p) : m'.Sound := by
  refine h.alter_of_fits ht hq hq' hs fun i d equations hd hp hi => ?_
  -- only equations by the changed parameter are in question here
  rcases heq with ⟨hvalues, hflag, hsame⟩ | hnone
  · rw [hsame] at hi
    obtain ⟨q₁, hq₁, hstored, hfits⟩ := h.equations i d equations hd hi
    rw [hp, hq] at hq₁
    cases hq₁
    refine ⟨hflag hstored, fun e he term hterm => ?_⟩
    obtain ⟨href, hvalue⟩ := hfits e he term hterm
    exact ⟨href, hvalues hvalue⟩
  · obtain ⟨d', hd', rfl⟩ := (mem_derivativesOf h.derivatives hd).2 hp
    rw [hnone d' (by rwa [ht.derivativesOf])] at hi
    cases hi

omit [Scalar α] in
/-- Nothing that is transcribed changes around a parameter that nothing depends on. -/
theorem Alters.sameGrid_of_unused (ht : m.Alters p m') (hq : m.parameter (.given p) = .ok q)
    (hu : m.isUsed p = false) : m.SameGrid m' where
  objects := ht.objects
  digits p₁ q₁ hq₁ := by
    obtain ⟨q₂, hq₂, hd, -⟩ := ht.parameter hq₁
    exact ⟨q₂, hq₂, hd⟩
  used p₁ q₁ q₂ hu₁ hq₁ hq₂ := by
    have hp : p₁ ≠ p := by
      rintro rfl
      rw [hu] at hu₁
      cases hu₁
    rw [ht.parameter_of_ne (index_ne hq hq₁ hp), hq₁] at hq₂
    cases hq₂
    exact ⟨rfl, rfl, fun h => h⟩
  -- a parameter by which something is differentiated would be used
  equations ref _ := by
    refine ht.equations ref.index fun d hd => ?_
    simp only [isUsed, usage, Usage.any, Bool.or_eq_false_iff, usedByDerivative,
      List.any_eq_false] at hu
    obtain ⟨⟨n, d'⟩, hmem, rfl⟩ := List.mem_map.1 hd
    obtain ⟨hmem, hp⟩ := List.mem_filter.1 hmem
    exact absurd hp (hu.1.2 d' (List.mem_map_of_mem hmem))

omit [Scalar α] in
/-- Nothing that is transcribed changes if the support values and the equations stay. -/
theorem Touches.sameGrid (ht : m.Touches p m') (hq : m.parameter (.given p) = .ok q)
    (hq' : m'.parameter (.given p) = .ok q') (hv : q'.supports.values = q.supports.values)
    (hg : q.hasGenerative = true → q'.hasGenerative = true)
    (he : ∀ i, m'.equations? i = m.equations? i) : m.SameGrid m' where
  objects := ht.objects
  digits p₁ q₁ hq₁ := by
    obtain ⟨q₂, hq₂, hd, -, -⟩ := ht.parameter hq₁
    exact ⟨q₂, hq₂, hd⟩
  used p₁ q₁ q₂ _ hq₁ hq₂ := by
    obtain ⟨q₃, hq₃, -, -, hi⟩ := ht.parameter hq₁
    rw [hq₂] at hq₃
    cases hq₃
    -- the others are as they were
    by_cases hp : p₁ = p
    · subst hp
      rw [hq] at hq₁
      cases hq₁
      rw [hq'] at hq₂
      cases hq₂
      exact ⟨hv, hi, hg⟩
    · rw [ht.parameter_of_ne (index_ne hq hq₁ hp), hq₁] at hq₂
      cases hq₂
      exact ⟨rfl, rfl, fun h => h⟩
  equations ref _ := he ref.index

/-- A change around a parameter leaves the supports of the others as defined as they were. -/
theorem Alters.definedAt_of_ne (ht : m.Alters p m') (hq : m.parameter (.given p) = .ok q) {p₁ : Ref}
    (hp : p₁ ≠ p) : m'.DefinedAt p₁ ↔ m.DefinedAt p₁ := by
  obtain ⟨q', hq', -⟩ := ht.parameter hq
  constructor
  · exact fun h q₁ hq₁ => h q₁ ((ht.parameter_of_ne (index_ne hq hq₁ hp)).2 hq₁)
  · exact fun h q₁ hq₁ => h q₁ ((ht.parameter_of_ne (index_ne hq' hq₁ hp)).1 hq₁)

/-- The grid stays defined if the supports of the parameter stay so. -/
theorem Alters.gridDefined_of (ht : m.Alters p m') (hq : m.parameter (.given p) = .ok q)
    (hm : m.GridDefined) (h : m.DefinedAt p → m'.DefinedAt p) : m'.GridDefined := by
  intro p₁ hu
  rw [ht.objects.isUsed] at hu
  by_cases hp : p₁ = p
  · subst hp
    exact h (hm p₁ hu)
  · exact (ht.definedAt_of_ne hq hp).2 (hm p₁ hu)

/-- The grid was defined before a change if undefined supports of the parameter do not vanish. -/
theorem Alters.gridDefined (ht : m.Alters p m') (hq : m.parameter (.given p) = .ok q)
    (h : m.isUsed p = true → m'.DefinedAt p → m.DefinedAt p) (hm : m'.GridDefined) :
    m.GridDefined := by
  intro p₁ hu
  have hd := hm p₁ (by rwa [ht.objects.isUsed])
  by_cases hp : p₁ = p
  · subst hp
    exact h hu hd
  · exact (ht.definedAt_of_ne hq hp).1 hd

/-- A model with the grid of a ready one is as ready as that. -/
theorem ReadySound.of_sameGrid (h : m.ReadySound full) (hready : m'.ready = true → m.ready = true)
    (ht : m'.transcription = m.transcription) (hg : m'.ready = true → m.SameGrid m') :
    m'.ReadySound full := by
  intro hr
  obtain ⟨built, t, hbuilt, htranscribed, hsound, hprepared, hgrid⟩ := h (hready hr)
  exact ⟨built, t, ht.trans hbuilt, htranscribed, hsound, hprepared, hgrid.trans (hg hr)⟩

/-- Derived supports of a parameter that a ready model depends on are in place or not asked for. -/
theorem ReadySound.derived (h : m.ReadySound full) (hr : m.ready = true) (hu : m.isUsed p = true)
    (hq : m.parameter (.given p) = .ok q) : q.hasGenerative = true ∨ q.info = .none := by
  obtain ⟨built, t, -, -, -, hprepared, hgrid⟩ := h hr
  obtain ⟨q₀, hq₀⟩ := hgrid.objects.symm.parameter hq
  obtain ⟨-, hi, hg⟩ := hgrid.used p q₀ q (by rwa [← hgrid.objects.isUsed]) hq₀ hq
  rcases hprepared.derived p q₀ hq₀ with h₀ | h₀
  · exact .inl (hg h₀)
  · exact .inr (hi.trans h₀)

/-- Every derivative of a ready model has stored equations. -/
theorem ReadySound.evaluated (h : m.ReadySound full) (hr : m.ready = true) {ref : Ref}
    (href : ref ∈ m.liveRefs .derivative) :
    ∃ equations, m.equations? ref.index = some equations := by
  obtain ⟨built, t, -, -, -, hprepared, hgrid⟩ := h hr
  rw [hgrid.objects.liveRefs] at href
  rw [hgrid.equations ref href]
  exact hprepared.evaluated ref href

/-- The label of derived supports of a sound parameter, where these are in place or not asked
for. -/
theorem label_of_derived (hs : q.Sound) (h : q.hasGenerative = true ∨ q.info = .none) :
    ∃ label, q.info.label = .ok label ∧ label ≠ .all := by
  rcases h with h | h
  · obtain ⟨basis, label, hi, hl, -⟩ := hs.derived h
    refine ⟨label, by rw [hi]; rfl, ?_⟩
    rintro rfl
    cases hl
  · exact ⟨.noLabel, by rw [h]; rfl, nofun⟩

/-- The parameters of a variable or derivative are live. -/
theorem Sound.live_of_indexed (h : m.Sound) {ref : Ref} {name : String} {parameters : List Ref}
    (hi : m.indexed ref = .ok (name, parameters)) :
    ∀ p ∈ parameters, ∃ q, m.parameter (.given p) = .ok q := by
  obtain ⟨-, ⟨v, -, hv, -, rfl⟩ | ⟨d, -, hd, -, rfl⟩⟩ := indexed_eq_ok.1 hi
  · exact (h.infinite _ v hv).2
  · obtain ⟨-, -, j, v, hv, hvd⟩ := h.derivative _ d hd
    exact hvd ▸ (h.infinite j v hv).2

/-- A parameter whose flag is not set has no stored equations. -/
theorem Sound.unevaluated (h : m.Sound) (hq : m.parameter (.given p) = .ok q)
    (hflag : q.hasEquations = false) : m.Unevaluated p := by
  intro ref href
  obtain ⟨⟨n, d⟩, hmem, rfl⟩ := List.mem_map.1 href
  obtain ⟨hmem, hp⟩ := List.mem_filter.1 hmem
  have hd := Table.get?_of_mem_rows h.derivatives hmem
  cases he : m.equations? (n : Int) with
  | none => exact he
  | some equations =>
    obtain ⟨q₁, hq₁, hstored, -⟩ := h.equations n d equations hd he
    rw [of_decide_eq_true hp, hq] at hq₁
    cases hq₁
    rw [hflag] at hstored
    cases hstored

omit [Scalar α] in
theorem Unevaluated.of_objects (h : m.Unevaluated p) (ho : m.SameObjects m')
    (he : ∀ i, m'.equations? i = m.equations? i) : m'.Unevaluated p := by
  intro d hd
  rw [he]
  refine h d ?_
  rw [derivativesOf, ho.derivatives] at hd
  simp only [ref, ho.id] at hd
  exact hd

omit [Scalar α] in
theorem unevaluated_dropEquationsOf (m : Model α) (p : Ref) :
    (m.dropEquationsOf p).Unevaluated p := by
  intro d hd
  rw [equations?_dropEquationsOf, if_pos]
  refine ⟨d, ?_, rfl⟩
  rw [dropEquationsOf_eq] at hd
  exact hd

/-- Changing a parameter without stored equations keeps the objects fitting together if the
parameter is still sound. -/
theorem Sound.modifyParameter (h : m.Sound) (hq : m.parameter (.given p) = .ok q)
    (hu : m.Unevaluated p) {f : Parameter α → Parameter α}
    (hf : ∀ q, (f q).digits = q.digits ∧ (f q).domain = q.domain ∧ (f q).info = q.info)
    (hs : (f q).Sound) : (m.modifyParameter p f).Sound :=
  h.alter (touches_modifyParameter m p f hf).toAlters hq (parameter_modifyParameter hq f) hs
    (.inr (hu.of_objects (sameObjects_modifyParameter m p f) fun _ => rfl))

@[simp]
theorem definedAt_markStaleIfUsed {p₁ : Ref} :
    (m.markStaleIfUsed p).DefinedAt p₁ ↔ m.DefinedAt p₁ := by
  simp only [DefinedAt, parameter_markStaleIfUsed]

theorem Sound.markStaleIfUsed (h : m.Sound) (hq : m.parameter (.given p) = .ok q) :
    (m.markStaleIfUsed p).Sound :=
  h.alter (touches_markStaleIfUsed m p p).toAlters hq (by rw [parameter_markStaleIfUsed, hq])
    (h.parameter p q hq)
    (.inl ⟨List.Subset.refl _, fun h => h, fun _ => equations?_markStaleIfUsed _⟩)

/-- When a change around one parameter keeps the invariant: the objects still fit together, and if
the model stays ready and something depends on the parameter, undefined supports do not vanish and
nothing that is transcribed changes. -/
theorem Inv.alter (h : m.Inv full) (ht : m.Alters p m') (hq : m.parameter (.given p) = .ok q)
    (hs : m'.Sound)
    (hdef : m'.ready = true → m.isUsed p = true → m'.DefinedAt p → m.DefinedAt p)
    (hready : m.GridDefined → m'.DefinedAt p → m'.ready = true → m.isUsed p = true →
      m.SameGrid m') : m'.Inv full where
  sound := hs
  ready hm' hr := by
    have hm := ht.gridDefined hq (hdef hr) hm'
    refine (h.ready hm).of_sameGrid ht.ready ht.transcription (fun hr => ?_) hr
    cases hu : m.isUsed p with
    | false => exact ht.sameGrid_of_unused hq hu
    | true => exact hready hm (hm' p (by rwa [ht.objects.isUsed])) hr hu

/-- A change after which the model is ready only where nothing depends on the parameter keeps the
invariant, if the objects still fit together. -/
theorem Inv.alter_of_unused (h : m.Inv full) (ht : m.Alters p m')
    (hq : m.parameter (.given p) = .ok q) (hs : m'.Sound)
    (hunused : m'.ready = true → m.isUsed p = false) : m'.Inv full := by
  have hstale : m'.ready = true → ¬ m.isUsed p = true := fun hr => Bool.eq_false_iff.1 (hunused hr)
  exact h.alter ht hq hs (fun hr hu => absurd hu (hstale hr)) fun _ _ hr hu => absurd hu (hstale hr)

end Model

end Discretization
