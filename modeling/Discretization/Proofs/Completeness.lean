import Discretization.Proofs.Additions
import Discretization.Proofs.Derivations
import Discretization.Proofs.Freshness
import Discretization.Proofs.Integrity
import Discretization.Proofs.Stencils

/-!
# Passes Over All Derivatives

A pass evaluates the derivatives one by one in the order of their creation and skips those that have
equations when their turn comes. The first evaluation with respect to a parameter puts its derived
supports in place, and if these bring in a new value, the equations of all derivatives with respect
to the parameter are dropped. Derivatives that the pass has yet to reach are evaluated then, but
those that it has skipped before are left without equations.

## Main definitions

* `Parameter.Awaits`: derived supports are missing that would bring in a new value;
* `Model.Overtaken`: a derivative with equations that a pass skips and takes the equations of;
* `Model.Settles`: what the evaluation of a derivative without equations does to the others;
* `Model.Stage`: how far a pass has come with the derivatives with respect to one parameter.

## Main results

* `ends_evaluate_settles`: evaluations settle derivatives;
* `hasEquations_iff_of_evaluateAll`: after a pass the overtaken derivatives have no equations, and
  all others have some;
* `hasEquations_of_spared`: unless the way in which supports are derived was replaced under stored
  equations, all have some.
-/

namespace Discretization

variable {α : Type} [Scalar α]

/-! ## New values among derived supports -/

namespace Parameter

variable {q : Parameter α}

/-- Derived supports are missing, and not all of them are stored already. -/
def Awaits (q : Parameter α) : Prop :=
  q.hasGenerative = false ∧ ∃ basis label derived rounded, q.info = .uniform basis label ∧
    (∀ owner, q.info.makeSupports (q.supports.baseValues label) owner = .ok derived) ∧
    roundList q.digits derived = .ok rounded ∧ ∃ x ∈ rounded, q.supports.contains x = false

theorem not_awaits_of_derived (h : q.hasGenerative = true ∨ q.info = .none) : ¬ q.Awaits := by
  rintro ⟨hmissing, basis, label, derived, rounded, hinfo, -⟩
  rcases h with hset | hnone
  · simp [hset] at hmissing
  · simp [hnone] at hinfo

/-- Where derived supports can be computed, they are awaited just if adding them reports new
values. -/
theorem awaits_iff {basis derived rounded : List α} {label : Label} {owner : String}
    (hmissing : q.hasGenerative = false) (hinfo : q.info = .uniform basis label)
    (hderives : q.info.makeSupports (q.supports.baseValues label) owner = .ok derived)
    (hrounds : roundList q.digits derived = .ok rounded) :
    q.Awaits ↔ (q.supports.addAll rounded label).1 = true := by
  rw [SupportMap.addAll_eq_true_iff]
  constructor
  · rintro ⟨-, basis', label', derived', rounded', hinfo', hderives', hrounds', hnew⟩
    obtain ⟨rfl, rfl⟩ := GenerativeInfo.uniform.inj (hinfo.symm.trans hinfo')
    obtain rfl : derived = derived' := Except.ok.inj (hderives.symm.trans (hderives' owner))
    obtain rfl : rounded = rounded' := Except.ok.inj (hrounds.symm.trans hrounds')
    exact hnew
  · exact fun hnew => ⟨hmissing, basis, label, derived, rounded, hinfo,
      makeSupports_owner hderives, hrounds, hnew⟩

end Parameter

namespace Store

open Operation Workspace

variable {w : Workspace α} {p : Ref} {q : Parameter α}

/-- With derived supports in place none are missing. If they were awaited, no derivative with
respect to the parameter has equations any more, and otherwise all equations are where they were. -/
theorem ends_addGenerative_awaits (hc : w.model.Consistent)
    (hq : w.model.parameter (.given p) = .ok q) :
    Ends (addGenerative p) w
      (fun _ w' => (∃ q', w'.model.parameter (.given p) = .ok q' ∧
          (q'.hasGenerative = true ∨ q'.info = .none)) ∧
        (q.Awaits → w'.model.Unevaluated p) ∧
        (¬ q.Awaits → ∀ i, w'.model.equations? i = w.model.equations? i))
      fun _ => True := by
  refine ends_addGenerative_of trivial (fun q₀ hq₀ hderived => ?_)
    fun q₀ basis label derived hq₀ hmissing hinfo hderives => ?_
  · -- nothing is missing, so nothing is done
    obtain rfl : q = q₀ := Except.ok.inj (hq.symm.trans hq₀)
    exact ⟨⟨q, hq, hderived⟩, fun h => absurd h (Parameter.not_awaits_of_derived hderived),
      fun _ _ => rfl⟩
  · obtain rfl : q = q₀ := Except.ok.inj (hq.symm.trans hq₀)
    refine ends_add_of trivial fun q₁ l rounded hq₁ hl _ hrounds _ => ?_
    obtain rfl : q = q₁ := Except.ok.inj (hq.symm.trans hq₁)
    obtain rfl := Argument.given.inj hl
    have hawaits := Parameter.awaits_iff hmissing hinfo hderives hrounds
    refine ⟨fun hold => ?_, fun hnew w₂ hcleared => ?_⟩
    · -- no derived value is new: some supports gain a label, and equations stay
      have hnot : ¬ q.Awaits := by simp [hawaits, hold]
      let f (q₁ : Parameter α) : Parameter α :=
        { q₁ with
          supports := (q.supports.addAll rounded label).2
          hasInternal := q₁.hasInternal || label.internal }
      have hq₁ := Model.parameter_modifyParameter hq f
      exact ⟨⟨_, Model.parameter_modifyParameter hq₁ _, .inl rfl⟩, fun h => absurd h hnot,
        fun _ _ => rfl⟩
    · -- the equations are dropped, unless the flag says that there are none
      have hu₂ : w₂.model.Unevaluated p := hcleared.unevaluated fun hflag =>
        (hc.unevaluated hq hflag).of_objects (Model.sameObjects_modifyParameter _ p _) fun _ => rfl
      refine ends_resetGenerative_of_missing hcleared.parameter hmissing ?_
      have hq₂ : (w₂.model.markStaleIfUsed p).parameter (.given p) = _ :=
        (Model.parameter_markStaleIfUsed _).trans hcleared.parameter
      exact ⟨⟨_, Model.parameter_modifyParameter hq₂ _, .inl rfl⟩,
        fun _ => (hu₂.markStaleIfUsed p).of_objects (Model.sameObjects_modifyParameter _ p _)
          fun _ => rfl,
        fun hnot => absurd (hawaits.2 hnew) hnot⟩

end Store

/-! ## One evaluation -/

namespace Model

variable {m m' : Model α} {p d : Ref}

/-- A derivative has stored equations. -/
def HasEquations (m : Model α) (d : Ref) : Prop :=
  ∃ equations, m.equations? d.index = some equations

instance (m : Model α) (d : Ref) : Decidable (m.HasEquations d) :=
  decidable_of_iff ((m.equations? d.index).isSome = true) Option.isSome_iff_exists

/-- A live derivative with respect to a parameter. -/
def Differentiates (m : Model α) (p d : Ref) : Prop :=
  ∃ object, m.derivative d = .ok object ∧ object.parameter = p

/-- The derivative gets equations, once no derived supports of its parameter are missing. If these
were awaited, the others with respect to the parameter have lost their equations. -/
structure Settles (m : Model α) (p : Ref) (q : Parameter α) (d : Ref) (m' : Model α) : Prop where
  alters : m.Alters p m'
  derived : ∃ q', m'.parameter (.given p) = .ok q' ∧ (q'.hasGenerative = true ∨ q'.info = .none)
  stored : m'.HasEquations d
  others : ∀ d', m.Differentiates p d' → d'.index ≠ d.index →
    (m'.HasEquations d' ↔ m.HasEquations d' ∧ ¬ q.Awaits)

omit [Scalar α] in
theorem SameObjects.differentiates (h : m.SameObjects m') :
    m'.Differentiates p d ↔ m.Differentiates p d := by
  simp only [Differentiates, h.derivative]

omit [Scalar α] in
/-- A derivative with respect to a parameter is among those whose equations are dropped with the
supports of the parameter, and of no other parameter. -/
theorem Differentiates.mem_derivativesOf (h : m.Differentiates p d)
    (hm : m.derivatives.WellFormed) {p' : Ref} :
    (∃ d' ∈ m.derivativesOf p', d'.index = d.index) ↔ p = p' := by
  obtain ⟨object, hd, rfl⟩ := h
  exact Model.mem_derivativesOf hm (derivative_eq_ok.1 hd).2.2

end Model

namespace Evaluation

open Operation Workspace Store

variable {w : Workspace α} {p d : Ref} {q : Parameter α}

/-- Evaluating a derivative leaves everything as it is or settles the derivative. -/
theorem ends_evaluate_settles (hc : w.model.Consistent) (hd : w.model.Differentiates p d)
    (hq : w.model.parameter (.given p) = .ok q) :
    Ends (evaluate d) w
      (fun _ w' => (w.model.HasEquations d ∧ w' = w) ∨
        (¬ w.model.HasEquations d ∧ w.model.Settles p q d w'.model))
      fun _ => True := by
  obtain ⟨object, hd, rfl⟩ := hd
  refine ends_evaluate_of trivial (fun equations hstored => .inl ⟨⟨equations, hstored⟩, rfl⟩)
    fun object' hnone hd' => ?_
  obtain rfl : object = object' := Except.ok.inj (hd.symm.trans hd')
  refine ((ends_addGenerative_awaits hc hq).and
    ((moves_addGenerative object.parameter).ends w)).mono ?_ fun _ _ => trivial
  rintro _ w₁ ⟨⟨⟨q₁, hq₁, hderived⟩, hdropped, hkept⟩, ht₁⟩
  refine ⟨trivial, fun q₂ equations hq₂ _ => .inr ⟨fun ⟨_, h⟩ => by simp [hnone] at h, ?_⟩⟩
  have ho₁ := ht₁.model.objects
  have hd₁ := ho₁.derivative.2 hd
  have hm₁ : w₁.model.derivatives.WellFormed := by
    rw [ho₁.derivatives]
    exact hc.derivatives
  let m₂ := (w₁.model.storeEquations d.index.toNat equations).modifyParameter object.parameter
    fun q => { q with hasEquations := true }
  have hlook : ∀ i, m₂.equations? i =
      (w₁.model.equations? i).or (if i = d.index then some equations else none) :=
    Model.equations?_storeEquations_derivative hd₁ equations
  refine ⟨ht₁.model.toAlters.trans
      (Model.touches_storeEquations_derivative hm₁ hd₁ equations).toAlters,
    ⟨_, Model.parameter_modifyParameter (m := w₁.model.storeEquations _ _) hq₁ _, hderived⟩, ?_,
    fun d' hd' hne => ?_⟩
  · -- storing replaces no equations, so there are some in any case
    have hstored := hlook d.index
    rw [if_pos rfl] at hstored
    cases hold : w₁.model.equations? d.index with
    | some others => exact ⟨others, by rw [hstored, hold]; rfl⟩
    | none => exact ⟨equations, by rw [hstored, hold]; rfl⟩
  · -- among the derivatives with respect to the parameter, only `d` has gained equations
    have hsame : m₂.equations? d'.index = w₁.model.equations? d'.index := by
      rw [hlook, if_neg hne, Option.or_none]
    change m₂.HasEquations d' ↔ _
    by_cases hawaits : q.Awaits
    · obtain ⟨d'', hmem, hindex⟩ := (hd'.mem_derivativesOf hc.derivatives).2 rfl
      have hnone' := hdropped hawaits d'' (by rwa [ht₁.model.derivativesOf])
      rw [hindex] at hnone'
      simp [Model.HasEquations, hsame, hnone', hawaits]
    · simp [Model.HasEquations, hsame, hkept hawaits, hawaits]

end Evaluation

/-! ## A pass -/

namespace Model

variable {m m' m'' : Model α} {p p' d d' : Ref} {q q' : Parameter α} {gone : List Ref}

/-- A derivative with respect to a parameter that has no equations yet. -/
def Pending (m : Model α) (p d : Ref) : Prop :=
  m.Differentiates p d ∧ ¬ m.HasEquations d

/-- A pass comes by while the derivative has equations, and goes on to evaluate others with respect
to the same parameter, whose derived supports bring in a new value. -/
def Overtaken (m : Model α) (d : Ref) : Prop :=
  ∃ p q, m.Differentiates p d ∧ m.parameter (.given p) = .ok q ∧ q.Awaits ∧
    (∃ d', m.Pending p d') ∧ ∀ d', m.Pending p d' → d.index < d'.index

theorem overtaken_iff (hd : m.Differentiates p d) (hq : m.parameter (.given p) = .ok q) :
    m.Overtaken d ↔
      q.Awaits ∧ (∃ d', m.Pending p d') ∧ ∀ d', m.Pending p d' → d.index < d'.index := by
  constructor
  · -- a derivative has only one parameter
    rintro ⟨p', q', ⟨object', hobject', rfl⟩, hq', h⟩
    obtain ⟨object, hobject, rfl⟩ := hd
    obtain rfl : object = object' := Except.ok.inj (hobject.symm.trans hobject')
    obtain rfl : q = q' := Except.ok.inj (hq.symm.trans hq')
    exact h
  · exact fun h => ⟨p, q, hd, hq, h⟩

/-- What has become of the derivatives with respect to a parameter once a pass has gone through some
derivatives of the first model. -/
inductive Stage (m : Model α) (p : Ref) (gone : List Ref) (m' : Model α) : Prop where
  /-- None of them had to be evaluated, so nothing has changed. -/
  | untouched (skipped : ∀ d ∈ gone, ¬ m.Pending p d)
    (parameter : m'.parameter (.given p) = m.parameter (.given p))
    (equations : ∀ d, m.Differentiates p d → m'.equations? d.index = m.equations? d.index)
  /-- One of them was evaluated. No derived supports are missing any more, and it is known what has
  become of those gone through. -/
  | derived (evaluated : ∃ d ∈ gone, m.Pending p d)
    (derived : ∃ q, m'.parameter (.given p) = .ok q ∧ (q.hasGenerative = true ∨ q.info = .none))
    (stored : ∀ d ∈ gone, m.Differentiates p d → (m'.HasEquations d ↔ ¬ m.Overtaken d))

/-- A derivative that is to be evaluated overtakes none created after it. -/
theorem Pending.not_overtaken (h : m.Pending p d') (hd : m.Differentiates p d)
    (hle : d'.index ≤ d.index) : ¬ m.Overtaken d := by
  obtain ⟨object, hobject, rfl⟩ := hd
  rintro ⟨_, q, ⟨object', hobject', rfl⟩, -, -, -, hlater⟩
  obtain rfl : object = object' := Except.ok.inj (hobject.symm.trans hobject')
  exact (hlater d' h).not_ge hle

/-- A derivative with respect to another parameter is of no account. -/
theorem Stage.other (hs : m.Stage p gone m') (ht : m'.Alters p' m'') (ho : m.SameObjects m')
    (hm : m.derivatives.WellFormed) (hp : p ≠ p') (hq : m.parameter (.given p) = .ok q)
    (hq' : m.parameter (.given p') = .ok q') (hd : m.Differentiates p' d) :
    m.Stage p (gone ++ [d]) m'' := by
  -- the change is around `p'`, so neither `p` nor equations by `p` are touched
  have hparameter : m''.parameter (.given p) = m'.parameter (.given p) := by
    obtain ⟨q₁, hq₁⟩ := ho.parameter hq
    rw [hq₁, (ht.parameter_of_ne (index_ne hq' hq hp)).2 hq₁]
  have hother : ¬ m.Differentiates p d := by
    rintro ⟨object, hobject, rfl⟩
    obtain ⟨object', hobject', rfl⟩ := hd
    exact hp (congrArg _ (Except.ok.inj (hobject.symm.trans hobject')))
  have hequations : ∀ d', m.Differentiates p d' →
      m''.equations? d'.index = m'.equations? d'.index := by
    intro d' hd'
    have hwell : m'.derivatives.WellFormed := by rwa [ho.derivatives]
    exact ht.equations _ fun d'' hmem hindex =>
      hp (((ho.differentiates.2 hd').mem_derivativesOf hwell).1 ⟨d'', hmem, hindex⟩)
  -- on both sides of the first pending derivative the stage stays what it was
  cases hs with
  | untouched skipped parameter equations =>
    exact .untouched (List.forall_mem_append.2 ⟨skipped,
      List.forall_mem_singleton.2 fun hpending => hother hpending.1⟩)
      (hparameter.trans parameter) fun d' hd' => (hequations d' hd').trans (equations d' hd')
  | derived evaluated derived stored =>
    obtain ⟨first, hfirst, hpending⟩ := evaluated
    refine .derived ⟨first, List.mem_append_left _ hfirst, hpending⟩ (by rwa [hparameter])
      (List.forall_mem_append.2 ⟨fun d' hmem hd' => ?_,
        List.forall_mem_singleton.2 fun hd' => absurd hd' hother⟩)
    rw [HasEquations, hequations d' hd']
    exact stored d' hmem hd'

/-- A derivative is skipped that has equations when its turn comes. -/
theorem Stage.skip (hs : m.Stage p gone m') (hd : m.Differentiates p d)
    (hstored : m'.HasEquations d) (hlater : ∀ d' ∈ gone, d'.index < d.index) :
    m.Stage p (gone ++ [d]) m' := by
  cases hs with
  | untouched skipped parameter equations =>
    rw [HasEquations, equations d hd] at hstored
    exact .untouched (List.forall_mem_append.2 ⟨skipped,
      List.forall_mem_singleton.2 fun hpending => hpending.2 hstored⟩) parameter equations
  | derived evaluated derived stored =>
    obtain ⟨first, hfirst, hpending⟩ := evaluated
    -- equations that are stored once the first derivative was evaluated are kept
    have hkept := hpending.not_overtaken hd (hlater first hfirst).le
    exact .derived ⟨first, List.mem_append_left _ hfirst, hpending⟩ derived
      (List.forall_mem_append.2 ⟨stored,
        List.forall_mem_singleton.2 fun _ => iff_of_true hstored hkept⟩)

/-- A derivative is evaluated that has no equations when its turn comes. -/
theorem Stage.settle (hs : m.Stage p gone m') (hd : m.Differentiates p d)
    (hnone : ¬ m'.HasEquations d) (hq : m.parameter (.given p) = .ok q)
    (hq' : m'.parameter (.given p) = .ok q') (ht : m'.Settles p q' d m'') (ho : m.SameObjects m')
    (hlater : ∀ d' ∈ gone, d'.index < d.index)
    (hearlier : ∀ d', m.Pending p d' → d' ∉ gone → d.index ≤ d'.index) :
    m.Stage p (gone ++ [d]) m'' := by
  have hothers : ∀ d' ∈ gone, m.Differentiates p d' →
      (m''.HasEquations d' ↔ m'.HasEquations d' ∧ ¬ q'.Awaits) := fun d' hmem hd' =>
    ht.others d' (ho.differentiates.2 hd') (hlater d' hmem).ne
  cases hs with
  | untouched skipped parameter equations =>
    obtain rfl : q = q' := Except.ok.inj (hq.symm.trans (parameter.symm.trans hq'))
    have hpending : m.Pending p d := ⟨hd, by rwa [HasEquations, ← equations d hd]⟩
    refine .derived ⟨d, by simp, hpending⟩ ht.derived
      (List.forall_mem_append.2 ⟨fun d' hmem hd' => ?_, List.forall_mem_singleton.2 fun _ =>
        iff_of_true ht.stored (hpending.not_overtaken hd le_rfl)⟩)
    -- those gone through had equations, and `d` is the first to be evaluated
    have hstored : m'.HasEquations d' := by
      rw [HasEquations, equations d' hd']
      exact not_not.1 fun h => skipped d' hmem ⟨hd', h⟩
    have hall : ∀ d'', m.Pending p d'' → d'.index < d''.index := fun d'' h'' =>
      (hlater d' hmem).trans_le (hearlier d'' h'' fun hgone => skipped d'' hgone h'')
    rw [hothers d' hmem hd', and_iff_right hstored, overtaken_iff hd' hq]
    exact not_congr ⟨fun h => ⟨h, ⟨d, hpending⟩, hall⟩, fun h => h.1⟩
  | derived evaluated derived stored =>
    obtain ⟨first, hfirst, hpending⟩ := evaluated
    obtain ⟨q₁, hq₁, hderived⟩ := derived
    obtain rfl : q' = q₁ := Except.ok.inj (hq'.symm.trans hq₁)
    refine .derived ⟨first, List.mem_append_left _ hfirst, hpending⟩ ht.derived
      (List.forall_mem_append.2 ⟨fun d' hmem hd' => ?_, List.forall_mem_singleton.2 fun _ =>
        iff_of_true ht.stored (hpending.not_overtaken hd (hlater first hfirst).le)⟩)
    -- with no derived supports missing, nothing more is dropped
    rw [hothers d' hmem hd', and_iff_left (Parameter.not_awaits_of_derived hderived)]
    exact stored d' hmem hd'

/-- Where a pass has gone through all derivatives, those without equations are overtaken. -/
theorem Stage.hasEquations_iff (hs : m.Stage p (m.liveRefs .derivative) m')
    (hd : m.Differentiates p d) (hq : m.parameter (.given p) = .ok q) :
    m'.HasEquations d ↔ ¬ m.Overtaken d := by
  have hlive : ∀ d', m.Differentiates p d' → d' ∈ m.liveRefs .derivative :=
    fun _ ⟨object, h, _⟩ => mem_liveRefs_derivative.2 ⟨object, h⟩
  cases hs with
  | untouched skipped parameter equations =>
    rw [HasEquations, equations d hd]
    refine iff_of_true (not_not.1 fun h => skipped d (hlive d hd) ⟨hd, h⟩) fun hovertaken => ?_
    obtain ⟨-, ⟨d', hpending⟩, -⟩ := (overtaken_iff hd hq).1 hovertaken
    exact skipped d' (hlive d' hpending.1) hpending
  | derived evaluated derived stored => exact stored d (hlive d hd) hd

omit [Scalar α] in
/-- Derivatives are gone through in the order of their creation. -/
theorem index_of_liveRefs {rest : List Ref} (hm : m.derivatives.WellFormed)
    (hlive : m.liveRefs .derivative = gone ++ d :: rest) :
    (∀ d' ∈ gone, d'.index < d.index) ∧ ∀ d' ∈ rest, d.index < d'.index := by
  have hsorted : (m.liveRefs .derivative).Pairwise fun d d' => d.index < d'.index :=
    List.pairwise_map.2 (hm.increasing.imp fun h => Int.ofNat_lt.2 h)
  rw [hlive, List.pairwise_append, List.pairwise_cons] at hsorted
  obtain ⟨-, ⟨hrest, -⟩, hgone⟩ := hsorted
  exact ⟨fun d' hd' => hgone d' hd' d List.mem_cons_self, hrest⟩

omit [Scalar α] in
/-- A live derivative has a live parameter. -/
theorem Intact.exists_parameter (hi : m.Intact) (hd : d ∈ m.liveRefs .derivative) :
    ∃ p q, m.Differentiates p d ∧ m.parameter (.given p) = .ok q := by
  obtain ⟨object, hobject⟩ := mem_liveRefs_derivative.1 hd
  obtain ⟨-, hkind, hfound⟩ := derivative_eq_ok.1 hobject
  have haxes := hi.live_axes (o := .derivative object) (find?_eq_some.2 ⟨hkind, hfound⟩)
  obtain ⟨q, hq⟩ := mem_liveRefs_parameter.1 (haxes object.parameter List.mem_cons_self)
  exact ⟨object.parameter, q, ⟨object, hobject, rfl⟩, hq⟩

/-- Derivatives whose equations are backed by the supports are not overtaken. -/
theorem Backed.not_overtaken (h : m.Backed) : ¬ m.Overtaken d := by
  rintro ⟨p, q, ⟨object, hd, rfl⟩, hq, hawaits, -, hlater⟩
  by_cases hstored : m.HasEquations d
  · -- backed equations were built when no derived supports were missing
    obtain ⟨equations, hi⟩ := hstored
    exact Parameter.not_awaits_of_derived (h.backs hd hq hi).derived hawaits
  · exact lt_irrefl _ (hlater d ⟨⟨object, hd, rfl⟩, hstored⟩)

end Model

namespace Evaluation

open Operation

variable {w : Workspace α}

/-- A pass leaves the objects alone, and the derivatives without equations after it are those that
it overtakes. -/
theorem ends_evaluateAll_hasEquations (hc : w.model.Consistent) (hi : w.model.Intact) :
    Ends evaluateAll w
      (fun _ w' => w.model.SameObjects w'.model ∧ ∀ d ∈ w.model.liveRefs .derivative,
        (w'.model.HasEquations d ↔ ¬ w.model.Overtaken d))
      fun _ => True := by
  unfold evaluateAll
  rw [ends_bind, ends_model, ends_bind]
  -- the stages of all parameters are kept, and a turn moves that of one parameter on
  refine (Ends.forIn (fun gone w' => w'.model.Consistent ∧ w.model.SameObjects w'.model ∧
    ∀ p q, w.model.parameter (.given p) = .ok q → w.model.Stage p gone w'.model)
    ⟨hc, .refl _, fun p q _ => .untouched nofun rfl fun _ _ => rfl⟩ ?_).mono ?_ fun _ h => h
  · rintro gone d rest w₁ hxs ⟨hc₁, ho₁, hstage⟩
    obtain ⟨hlater, hrest⟩ := Model.index_of_liveRefs hc.derivatives hxs
    -- what is still to be evaluated comes now or later
    have hearlier : ∀ p d', w.model.Pending p d' → d' ∉ gone → d.index ≤ d'.index := by
      rintro p d' ⟨⟨object', hd', -⟩, -⟩ hnot
      have hmem := Model.mem_liveRefs_derivative.2 ⟨object', hd'⟩
      rw [hxs, List.mem_append, List.mem_cons] at hmem
      obtain rfl | hmem := hmem.resolve_left hnot
      · exact le_rfl
      · exact (hrest d' hmem).le
    obtain ⟨p, q, hd, hq⟩ := hi.exists_parameter (d := d) (by simp [hxs])
    obtain ⟨q₁, hq₁⟩ := ho₁.parameter hq
    rw [ends_bind]
    refine ((ends_evaluate_settles hc₁ (ho₁.differentiates.2 hd) hq₁).and
      ((consistent_evaluate d).ends w₁)).mono ?_ fun _ _ => trivial
    rintro equations w₂ ⟨hends, hconsistent⟩
    have ht : w₁.model.Alters p w₂.model := by
      obtain ⟨-, rfl⟩ | ⟨-, hsettles⟩ := hends
      · exact .refl _
      · exact hsettles.alters
    refine (ends_pure _).2 ⟨rfl, hconsistent hc₁, ho₁.trans ht.objects, fun p' q' hq' => ?_⟩
    by_cases hp : p' = p
    · subst hp
      obtain ⟨hstored, rfl⟩ | ⟨hnone, hsettles⟩ := hends
      · exact (hstage p' q hq).skip hd hstored hlater
      · exact (hstage p' q hq).settle hd hnone hq hq₁ hsettles ho₁ hlater (hearlier p')
    · exact (hstage p' q' hq').other ht ho₁ hc.derivatives hp hq' hq hd
  · rintro _ w' ⟨-, ho, hstage⟩
    refine (ends_pure _).2 ⟨ho, fun d hmem => ?_⟩
    obtain ⟨p, q, hd, hq⟩ := hi.exists_parameter hmem
    exact (hstage p q hq).hasEquations_iff hd hq

/-- Unless the way in which supports are derived was replaced under stored equations, a pass leaves
no derivative without equations. -/
theorem hasEquations_of_spared {m : Model α} (h : Spared m) {e : Environment α} {w' : Workspace α}
    (hrun : evaluateAll ⟨e, m⟩ = .ok () w') :
    ∀ d ∈ w'.model.liveRefs .derivative, w'.model.HasEquations d := by
  obtain ⟨ho, hall⟩ := (ends_evaluateAll_hasEquations (w := ⟨e, m⟩) h.requested.consistent
    h.requested.intact).of_ok hrun
  rw [ho.liveRefs]
  exact fun d hd => (hall d hd).2 h.backed.not_overtaken

/-- After a pass over all derivatives, exactly those have no equations that were overtaken: they had
equations when the pass came by, and a derivative that it came to later brought in new derived
supports. -/
theorem hasEquations_iff_of_evaluateAll {m : Model α} (h : Requested m) {e : Environment α}
    {w' : Workspace α} (hrun : evaluateAll ⟨e, m⟩ = .ok () w') :
    ∀ d ∈ w'.model.liveRefs .derivative, (w'.model.HasEquations d ↔ ¬ m.Overtaken d) := by
  obtain ⟨ho, hall⟩ :=
    (ends_evaluateAll_hasEquations (w := ⟨e, m⟩) h.consistent h.intact).of_ok hrun
  rw [ho.liveRefs]
  exact hall

/-- Of three derivatives, the first and the last have equations when the way in which supports are
derived is replaced. The pass skips the first and evaluates the second, and the last again. -/
theorem hasEquations_iff_of_evaluateAll_overtaken :
    let p : Ref := ⟨0, .parameter, 1⟩
    let x : Ref := ⟨0, .infiniteVariable, 1⟩
    let d (i : Nat) : Ref := ⟨0, .derivative, i⟩
    let m : Model ℚ := Request.replay { id := 0 }
      [.addParameter (.scalar (.interval 0 1)) "t" (some [0, 1]) 0 (some 6)
        (.finiteDifference .backward),
      .addInfiniteVariable "x" [.given p] none none .none false,
      .addDerivative (.given x) p "first" (.ok "t"),
      .addDerivative (.given x) p "second" (.ok "t"),
      .addDerivative (.given x) p "third" (.ok "t"),
      .evaluate (d 1),
      .evaluate (d 3),
      .setGenerativeInfo p (.given (.uniform [1 / 2] .collocation))]
    Requested m ∧ m.Defined ∧ ∃ w', evaluateAll ⟨{}, m⟩ = .ok () w' ∧
      (∀ d ∈ w'.model.liveRefs .derivative, (w'.model.HasEquations d ↔ ¬ m.Overtaken d)) ∧
      m.Overtaken (d 1) ∧ ¬ m.Overtaken (d 2) ∧ ¬ m.Overtaken (d 3) := by
  intro p x d m
  have hr : Requested m := .replay (.start 0 "model") _
  have hdef : m.Defined := Model.defined_of_allDefined (by decide +kernel)
  have hruns : Ends evaluateAll ⟨{}, m⟩
      (fun _ w' => w'.model.liveRefs .derivative = [d 1, d 2, d 3] ∧
        ¬ w'.model.HasEquations (d 1) ∧ w'.model.HasEquations (d 2) ∧ w'.model.HasEquations (d 3))
      fun _ => False := by decide +kernel
  obtain ⟨_, w', hrun, hlive, hfirst, hsecond, hthird⟩ := hruns.exists_ok
  have hiff := hasEquations_iff_of_evaluateAll hr hrun
  rw [hiff _ (by simp [hlive])] at hfirst hsecond hthird
  exact ⟨hr, hdef, w', hrun, hiff, not_not.1 hfirst, hsecond, hthird⟩

/-- A derivative is evaluated, the way in which supports are derived is replaced, and another
derivative is added. A pass leaves the first without equations. -/
theorem not_hasEquations_of_evaluateAll :
    ¬ ∀ (m : Model ℚ) (e : Environment ℚ) (w' : Workspace ℚ), Requested m → m.Defined →
      evaluateAll ⟨e, m⟩ = .ok () w' →
        ∀ d ∈ w'.model.liveRefs .derivative, w'.model.HasEquations d := by
  intro hall
  let p : Ref := ⟨0, .parameter, 1⟩
  let x : Ref := ⟨0, .infiniteVariable, 1⟩
  let d : Ref := ⟨0, .derivative, 1⟩
  let m : Model ℚ := Request.replay { id := 0 }
    [.addParameter (.scalar (.interval 0 1)) "t" (some [0, 1]) 0 (some 6)
      (.finiteDifference .backward),
    .addInfiniteVariable "x" [.given p] none none .none false,
    .addDerivative (.given x) p "first" (.ok "t"),
    .evaluate d,
    .setGenerativeInfo p (.given (.uniform [1 / 2] .collocation)),
    .addDerivative (.given x) p "second" (.ok "t")]
  have hr : Requested m := .replay (.start 0 "model") _
  have hdef : m.Defined := Model.defined_of_allDefined (by decide +kernel)
  have hruns : Ends evaluateAll ⟨{}, m⟩
      (fun _ w' => d ∈ w'.model.liveRefs .derivative ∧ ¬ w'.model.HasEquations d)
      fun _ => False := by decide +kernel
  obtain ⟨_, w', hrun, hlive, hnone⟩ := hruns.exists_ok
  exact hnone (hall m {} w' hr hdef hrun d hlive)

end Evaluation

end Discretization
