import Discretization.Modeling
import Discretization.Proofs.Preparations

/-!
# Building up a Model Keeps the Invariant

An added object refers to live objects only and gets an index that was never used, and an object is
deleted only if nothing depends on it. The model is stale afterwards, so what is left of the
invariant is that the objects fit together.

## Main results

* `Model.Sound.enlarge`: objects that fit can be added;
* `Model.inv_addDerivative`, `Model.inv_deleteDerivative` and their like: additions and deletions
  that are checked as a whole;
* `Modeling.keepsInv_addParameter`, `Modeling.keepsInv_addPointVariable`,
  `Modeling.keepsInv_addMeasure`, `Modeling.keepsInv_deleteMeasure`: those that also touch supports.
-/

namespace Discretization

variable {α : Type} [Scalar α]

namespace Model

variable {m : Model α} {full : Prop}

/-- A stale model only has to fit together. -/
theorem Inv.of_stale (hs : m.Sound) (hr : m.ready = false) : m.Inv full where
  sound := hs
  ready _ h := by
    rw [hr] at h
    cases h

theorem Sound.markStale (h : m.Sound) : m.markStale.Sound :=
  ⟨h.parameters, h.infiniteVariables, h.finiteVariables, h.pointVariables, h.derivatives,
    h.measures, h.constraints, h.parameter, h.infinite, h.derivative, h.point, h.measure, h.stored,
    h.equations⟩

theorem Sound.markReady (h : m.Sound) (t : Option (Transcription α)) : (m.markReady t).Sound :=
  ⟨h.parameters, h.infiniteVariables, h.finiteVariables, h.pointVariables, h.derivatives,
    h.measures, h.constraints, h.parameter, h.infinite, h.derivative, h.point, h.measure, h.stored,
    h.equations⟩

omit [Scalar α] in
theorem indexed_of_get? {m' : Model α} {ref : Ref} {found : String × List Ref} (hid : m'.id = m.id)
    (hv : ∀ i v, m.infiniteVariables.get? i = some v → m'.infiniteVariables.get? i = some v)
    (hd : ∀ i d, m.derivatives.get? i = some d → m'.derivatives.get? i = some d)
    (h : m.indexed ref = .ok found) : m'.indexed ref = .ok found := by
  obtain ⟨name, parameters⟩ := found
  rw [indexed_eq_ok] at h ⊢
  obtain ⟨hm, ⟨v, hk, hfound, hrest⟩ | ⟨d, hk, hfound, hrest⟩⟩ := h
  · exact ⟨hm.trans hid.symm, .inl ⟨v, hk, hv _ v hfound, hrest⟩⟩
  · exact ⟨hm.trans hid.symm, .inr ⟨d, hk, hd _ d hfound, hrest⟩⟩

/-! ## Changes that keep parameters and equations -/

/-- Parameters and stored equations are the same, and no infinite variable and no derivative is
missing. -/
structure Enlarges (m m' : Model α) : Prop where
  id : m'.id = m.id
  parameters : m'.parameters = m.parameters
  equations : m'.equations = m.equations
  infiniteVariables : ∀ i v, m.infiniteVariables.get? i = some v →
    m'.infiniteVariables.get? i = some v
  derivatives : ∀ i d, m.derivatives.get? i = some d → m'.derivatives.get? i = some d

omit [Scalar α] in
theorem Enlarges.parameter {m' : Model α} (h : Enlarges m m') (p : Ref) (q : Parameter α) :
    m'.parameter (.given p) = .ok q ↔ m.parameter (.given p) = .ok q := by
  rw [parameter_eq_ok, parameter_eq_ok, h.id, h.parameters]

omit [Scalar α] in
theorem Enlarges.indexed {m' : Model α} (h : Enlarges m m') {ref : Ref} {found : String × List Ref}
    (hf : m.indexed ref = .ok found) : m'.indexed ref = .ok found :=
  indexed_of_get? h.id h.infiniteVariables h.derivatives hf

/-- A model in which all but some new objects were there before fits together if the new ones
do. -/
theorem Sound.enlarge {m' : Model α} (h : m.Sound) (he : Enlarges m m')
    (hinfinite : m'.infiniteVariables.WellFormed ∧ ∀ i v, m'.infiniteVariables.get? i = some v →
      m.infiniteVariables.get? i = some v ∨ m.FitsInfinite v)
    (hfinite : m'.finiteVariables.WellFormed)
    (hpoint : m'.pointVariables.WellFormed ∧ ∀ i v, m'.pointVariables.get? i = some v →
      m.pointVariables.get? i = some v ∨ m.FitsPoint v)
    (hderivative : m'.derivatives.WellFormed ∧ ∀ i d, m'.derivatives.get? i = some d →
      m.derivatives.get? i = some d ∨ m.derivatives.get? i = none ∧ d.parameter ∈ d.parameters ∧
        ∃ name, m.indexed d.ref = .ok (name, d.parameters))
    (hmeasure : m'.measures.WellFormed ∧ ∀ i μ, m'.measures.get? i = some μ →
      m.measures.get? i = some μ ∨ m.FitsMeasure μ)
    (hconstraint : m'.constraints.WellFormed) : m'.Sound where
  parameters := he.parameters ▸ h.parameters
  infiniteVariables := hinfinite.1
  finiteVariables := hfinite
  pointVariables := hpoint.1
  derivatives := hderivative.1
  measures := hmeasure.1
  constraints := hconstraint
  parameter p q hq := h.parameter p q ((he.parameter p q).1 hq)
  infinite i v hv := by
    simp only [FitsInfinite, he.parameter]
    exact (hinfinite.2 i v hv).elim (h.infinite i v) fun hv => hv
  derivative i d hd := by
    have base : ∀ ref name parameters, m.indexed ref = .ok (name, parameters) →
        ∃ j v, m'.infiniteVariables.get? j = some v ∧ v.parameters = parameters := by
      intro ref name parameters hindexed
      obtain ⟨-, ⟨v, -, hv, -, hvp⟩ | ⟨d', -, hd', -, hdp⟩⟩ := indexed_eq_ok.1 hindexed
      · exact ⟨_, v, he.infiniteVariables _ v hv, hvp⟩
      · obtain ⟨-, -, j, v, hv, hvd⟩ := h.derivative _ d' hd'
        exact ⟨j, v, he.infiniteVariables j v hv, hvd.trans hdp⟩
    rcases hderivative.2 i d hd with hd | ⟨-, hp, name, hname⟩
    · obtain ⟨hp, ⟨name, hname⟩, -⟩ := h.derivative i d hd
      exact ⟨hp, ⟨name, he.indexed hname⟩, base _ _ _ hname⟩
    · exact ⟨hp, ⟨name, he.indexed hname⟩, base _ _ _ hname⟩
  point i v hv := by
    obtain ⟨name, parameters, hindexed, hlength, hround⟩ :=
      (hpoint.2 i v hv).elim (h.point i v) fun hv => hv
    refine ⟨name, parameters, he.indexed hindexed, hlength, fun p x hx q hq => ?_⟩
    exact hround p x hx q ((he.parameter p q).1 hq)
  measure i μ hμ := by
    obtain ⟨hkind, hshape, hlive⟩ := (hmeasure.2 i μ hμ).elim (h.measure i μ) fun hμ => hμ
    simp only [FitsMeasure, he.parameter]
    refine ⟨hkind, hshape, fun p hp => ⟨(hlive p hp).1, ?_⟩⟩
    obtain ⟨j, v, hv, hpv⟩ := (hlive p hp).2
    exact ⟨j, v, he.infiniteVariables j v hv, hpv⟩
  stored i equations hi := by
    rw [equations?, he.equations] at hi
    obtain ⟨d, hd⟩ := h.stored i equations hi
    exact ⟨d, he.derivatives i d hd⟩
  equations i d equations hd hi := by
    rw [equations?, he.equations] at hi
    rcases hderivative.2 i d hd with hd | ⟨hnone, -⟩
    · obtain ⟨q, hq, hrest⟩ := h.equations i d equations hd hi
      exact ⟨q, (he.parameter _ q).2 hq, by rwa [he.id]⟩
    · -- a new derivative has no equations
      obtain ⟨d', hd'⟩ := h.stored i equations hi
      rw [hnone] at hd'
      cases hd'

/-! ## Additions -/

omit [Scalar α] in
theorem get?_push_or {β : Type} {t : Table β} {b : β} {P : β → Prop} (hb : P b) (i : Int) (c : β)
    (h : (t.push b).get? i = some c) : t.get? i = some c ∨ P c := by
  rcases Table.get?_push h with h | ⟨-, rfl⟩
  · exact .inl h
  · exact .inr hb

theorem sound_pushPointVariable (h : m.Sound) {v : PointVariable α} (hv : m.FitsPoint v) :
    (m.pushPointVariable v).2.Sound :=
  h.enlarge ⟨rfl, rfl, rfl, fun _ _ h => h, fun _ _ h => h⟩
    ⟨h.infiniteVariables, fun _ _ h => .inl h⟩ h.finiteVariables
    ⟨h.pointVariables.push v, get?_push_or hv⟩ ⟨h.derivatives, fun _ _ h => .inl h⟩
    ⟨h.measures, fun _ _ h => .inl h⟩ h.constraints

theorem sound_pushMeasure (h : m.Sound) {μ : Measure α} (hμ : m.FitsMeasure μ) :
    (m.pushMeasure μ).2.Sound :=
  h.enlarge ⟨rfl, rfl, rfl, fun _ _ h => h, fun _ _ h => h⟩
    ⟨h.infiniteVariables, fun _ _ h => .inl h⟩ h.finiteVariables
    ⟨h.pointVariables, fun _ _ h => .inl h⟩ ⟨h.derivatives, fun _ _ h => .inl h⟩
    ⟨h.measures.push μ, get?_push_or hμ⟩ h.constraints

theorem sound_addFiniteVariable (h : m.Sound) (v : FiniteVariable α) :
    (m.addFiniteVariable v).2.Sound :=
  h.enlarge ⟨rfl, rfl, rfl, fun _ _ h => h, fun _ _ h => h⟩
    ⟨h.infiniteVariables, fun _ _ h => .inl h⟩ (h.finiteVariables.push v)
    ⟨h.pointVariables, fun _ _ h => .inl h⟩ ⟨h.derivatives, fun _ _ h => .inl h⟩
    ⟨h.measures, fun _ _ h => .inl h⟩ h.constraints

theorem sound_eraseMeasure (h : m.Sound) (i : Int) :
    Sound { m with measures := m.measures.erase i } :=
  h.enlarge ⟨rfl, rfl, rfl, fun _ _ h => h, fun _ _ h => h⟩
    ⟨h.infiniteVariables, fun _ _ h => .inl h⟩ h.finiteVariables
    ⟨h.pointVariables, fun _ _ h => .inl h⟩ ⟨h.derivatives, fun _ _ h => .inl h⟩
    ⟨h.measures.erase i, fun _ _ h => .inl (Table.get?_of_get?_erase h).2⟩ h.constraints

/-- What depends on a parameter does so without a measure, as the measured parameters underlie
variables. -/
theorem isUsed_eraseMeasure (h : m.Sound) (i : Int) {p : Ref} (hu : m.isUsed p = true) :
    Model.isUsed { m with measures := m.measures.erase i } p = true := by
  by_cases hmeasure : m.usedByMeasure p = true
  · obtain ⟨μ, hμ, hp⟩ := List.any_eq_true.1 hmeasure
    obtain ⟨⟨n, μ⟩, hrow, rfl⟩ := List.mem_map.1 hμ
    have hfits := h.measure n μ (Table.get?_of_mem_rows h.measures hrow)
    have hunderlies : m.Underlies p := (hfits.2.2 p (of_decide_eq_true hp)).2
    exact Underlies.isUsed (m := { m with measures := m.measures.erase i }) hunderlies
  · simp only [isUsed, usage, Usage.any, Bool.or_eq_true] at hu ⊢
    exact hu.imp_left (.imp_left fun hu => .inl (hu.resolve_right hmeasure))

theorem sound_setConstraints (h : m.Sound) {constraints : Table (Constraint α)}
    (hc : constraints.WellFormed) : Sound { m with constraints, ready := false } :=
  h.enlarge ⟨rfl, rfl, rfl, fun _ _ h => h, fun _ _ h => h⟩
    ⟨h.infiniteVariables, fun _ _ h => .inl h⟩ h.finiteVariables
    ⟨h.pointVariables, fun _ _ h => .inl h⟩ ⟨h.derivatives, fun _ _ h => .inl h⟩
    ⟨h.measures, fun _ _ h => .inl h⟩ hc

/-- A constraint refers to anything; only its index matters. -/
theorem inv_addConstraint {terms : List (α × Handle)} {sense name : String} {rhs : α}
    {restrictions : List (Handle × (α × α))} {ref : Ref} {m' : Model α} (h : m.Sound)
    (ha : m.addConstraint terms sense rhs name restrictions = .ok (ref, m')) : m'.Inv full := by
  obtain ⟨terms', relation, restrictions', -, -, rfl⟩ := exists_of_addConstraint ha
  exact .of_stale (sound_setConstraints h (h.constraints.push _)) rfl

theorem inv_deleteConstraint {handle : Handle} {m' : Model α} (h : m.Sound)
    (hd : m.deleteConstraint handle = .ok ((), m')) : m'.Inv full := by
  simp only [deleteConstraint, Except.bind_eq_ok, Except.pure_eq_ok, Prod.mk.injEq,
    true_and] at hd
  obtain ⟨ref, -, c, -, rfl⟩ := hd
  exact .of_stale (sound_setConstraints h (h.constraints.erase _)) rfl

/-- A new variable has live parameters, none of them twice. -/
theorem inv_addInfiniteVariable {name : String} {parameters : List Handle}
    {lower upper : Option α} {start : Start α} {integer : Bool} {ref : Ref} {m' : Model α}
    (h : m.Sound)
    (ha : m.addInfiniteVariable name parameters lower upper start integer = .ok (ref, m')) :
    m'.Inv full := by
  obtain ⟨live, hlive, hnodup, rfl⟩ := exists_of_addInfiniteVariable ha
  exact .of_stale (h.enlarge ⟨rfl, rfl, rfl, fun _ _ h => Table.get?_push_of_some h _,
    fun _ _ h => h⟩ ⟨h.infiniteVariables.push _, get?_push_or ⟨hnodup, hlive⟩⟩ h.finiteVariables
    ⟨h.pointVariables, fun _ _ h => .inl h⟩ ⟨h.derivatives, fun _ _ h => .inl h⟩
    ⟨h.measures, fun _ _ h => .inl h⟩ h.constraints) rfl

/-- A new derivative is one with respect to a parameter of its variable. -/
theorem inv_addDerivative {variableRef : Handle} {p : Ref} {name : String}
    {parameterName : Except (Error α) String} {ref : Ref} {m' : Model α} (h : m.Sound)
    (ha : m.addDerivative variableRef p name parameterName = .ok (ref, m')) : m'.Inv full := by
  obtain ⟨v, variableName, parameters, q, -, hindexed, hp, -, rfl⟩ := exists_of_addDerivative ha
  refine .of_stale (h.enlarge ⟨rfl, rfl, rfl, fun _ _ h => h,
    fun _ _ h => Table.get?_push_of_some h _⟩ ⟨h.infiniteVariables, fun _ _ h => .inl h⟩
    h.finiteVariables ⟨h.pointVariables, fun _ _ h => .inl h⟩ ⟨h.derivatives.push _, ?_⟩
    ⟨h.measures, fun _ _ h => .inl h⟩ h.constraints) rfl
  intro i d hd
  rcases Table.get?_push hd with hd | ⟨rfl, rfl⟩
  · exact .inl hd
  · refine .inr ⟨?_, hp, variableName, hindexed⟩
    -- the index is a new one
    rw [Option.eq_none_iff_forall_ne_some]
    exact fun d hd => Table.next_not_mem h.derivatives (Table.mem_indices_iff.2 ⟨d, hd⟩)

/-! ## Deleting a derivative -/

omit [Scalar α] in
theorem not_mem_of_checkUnreferenced {ref : Ref} {name : String} {kinds : List EntityKind}
    (h : m.checkUnreferenced ref name kinds = .ok ()) :
    ∀ kind ∈ kinds, ∀ row ∈ m.dependencies kind, ref ∉ row.2 := by
  unfold checkUnreferenced at h
  split at h
  · cases h
  · rename_i hfind
    intro kind hkind row hrow href
    rw [List.find?_eq_none] at hfind
    exact hfind row (List.mem_flatMap.2 ⟨kind, hkind, hrow⟩) (by simpa using href)

/-- Without a derivative that nothing depends on, and without its equations, a model still fits
together. -/
theorem sound_eraseDerivative {ref : Ref} {d : Derivative} (h : m.Sound)
    (hd : m.derivative ref = .ok d)
    (hderivatives : ∀ d' ∈ m.derivatives.objects, d'.ref ≠ ref)
    (hpoints : ∀ v ∈ m.pointVariables.objects, v.ref ≠ ref) :
    Sound { m.dropEquations ref.index with derivatives := m.derivatives.erase ref.index } := by
  obtain ⟨hid, hkind, hfound⟩ := derivative_eq_ok.1 hd
  -- other objects are found as before
  have hindexed : ∀ (ref' : Ref) (found : String × List Ref), ref' ≠ ref →
      m.indexed ref' = .ok found →
      Model.indexed { m.dropEquations ref.index with derivatives := m.derivatives.erase ref.index }
        ref' = .ok found := by
    rintro ref' ⟨name, parameters⟩ hne hi
    rw [indexed_eq_ok] at hi ⊢
    obtain ⟨hm, hv | ⟨d', hk, hd', hrest⟩⟩ := hi
    · exact ⟨hm, .inl hv⟩
    · refine ⟨hm, .inr ⟨d', hk, ?_, hrest⟩⟩
      rw [Table.get?_erase, if_neg]
      · exact hd'
      · intro hindex
        refine hne ?_
        cases ref
        cases ref'
        simp_all
  -- and have the equations that they had
  have hequations : ∀ i, i ≠ ref.index → ∀ equations,
      Model.equations? { m.dropEquations ref.index with
        derivatives := m.derivatives.erase ref.index } i = some equations →
      m.equations? i = some equations := by
    intro i hi equations he
    have hdrop := equations?_dropEquations (m := m) ref.index i
    rw [if_neg hi] at hdrop
    exact hdrop ▸ he
  exact { h with
    derivatives := h.derivatives.erase ref.index
    derivative := fun i d' hd' => by
      obtain ⟨-, hd'⟩ := Table.get?_of_get?_erase hd'
      obtain ⟨hp, ⟨name, hname⟩, hbase⟩ := h.derivative i d' hd'
      have hlower := hderivatives d' (Table.mem_objects_of_get? hd')
      exact ⟨hp, ⟨name, hindexed _ _ hlower hname⟩, hbase⟩
    point := fun i v hv => by
      obtain ⟨name, parameters, hname, hrest⟩ := h.point i v hv
      exact ⟨name, parameters, hindexed _ _ (hpoints v (Table.mem_objects_of_get? hv)) hname, hrest⟩
    stored := fun i equations he => by
      have hi : i ≠ ref.index := by
        rintro rfl
        have hdrop := equations?_dropEquations (m := m) ref.index ref.index
        rw [if_pos rfl] at hdrop
        cases hdrop.symm.trans he
      obtain ⟨d', hd'⟩ := h.stored i equations (hequations i hi equations he)
      exact ⟨d', by rw [Table.get?_erase, if_neg hi]; exact hd'⟩
    equations := fun i d' equations hd' he => by
      obtain ⟨hi, hd'⟩ := Table.get?_of_get?_erase hd'
      exact h.equations i d' equations hd' (hequations i hi equations he) }

/-- A derivative that nothing depends on can be deleted; the parameter forgets its equations with
the last that has any. -/
theorem inv_deleteDerivative {handle : Handle} {m' : Model α} (h : m.Sound)
    (hd : m.deleteDerivative handle = .ok ((), m')) : m'.Inv full := by
  obtain ⟨ref, d, _, q, hderivative, hfree, rfl, hq, rfl⟩ := exists_of_deleteDerivative hd
  have hfree := not_mem_of_checkUnreferenced hfree
  -- the check has found neither a derivative nor a point variable that refers to it
  have hs := sound_eraseDerivative h hderivative
    (fun d' hd' href => hfree .derivative (by simp) (d'.name, [d'.ref])
      (List.mem_map.2 ⟨d', hd', rfl⟩) (by simp [href]))
    (fun v hv href => hfree .pointVariable (by simp) (v.name, [v.ref])
      (List.mem_map.2 ⟨v, hv, rfl⟩) (by simp [href]))
  refine .of_stale (Sound.markStale ?_) rfl
  split
  · exact hs
  · rename_i hnone
    let f (q : Parameter α) : Parameter α := { q with hasEquations := false }
    obtain ⟨hscalar, hordered, hderived⟩ := hs.parameter _ q hq
    refine hs.alter_of_fits (touches_modifyParameter _ _ f fun _ => ⟨rfl, rfl, rfl⟩).toAlters hq
      (parameter_modifyParameter hq f) ⟨hscalar, hordered, hderived⟩
      fun i d' equations hd' hp hi => ?_
    -- the flag goes only where no derivative by the parameter has equations
    obtain ⟨r, hr, rfl⟩ := (mem_derivativesOf hs.derivatives hd').2 hp
    refine absurd (List.any_eq_true.2 ⟨r, hr, ?_⟩) hnone
    exact Option.isSome_iff_exists.2 ⟨equations, hi⟩

/-! ## Adding a parameter -/

theorem sound_pushParameter (h : m.Sound) {q : Parameter α} (hs : q.Sound) :
    (m.pushParameter q).2.Sound := by
  have hold : ∀ {p : Ref} {q' : Parameter α}, m.parameter (.given p) = .ok q' →
      (m.pushParameter q).2.parameter (.given p) = .ok q' := by
    intro p q' hq'
    obtain ⟨hid, hk, hg⟩ := parameter_eq_ok.1 hq'
    exact parameter_eq_ok.2 ⟨hid, hk, Table.get?_push_of_some hg q⟩
  have hlive : ∀ {p : Ref}, (∃ q', m.parameter (.given p) = .ok q') →
      ∃ q', (m.pushParameter q).2.parameter (.given p) = .ok q' :=
    fun ⟨q', hq'⟩ => ⟨q', hold hq'⟩
  have hindexed : ∀ {ref : Ref} {found : String × List Ref}, m.indexed ref = .ok found →
      (m.pushParameter q).2.indexed ref = .ok found :=
    fun hf => indexed_of_get? (m := m) rfl (fun _ _ h => h) (fun _ _ h => h) hf
  exact {
    parameters := h.parameters.push q
    infiniteVariables := h.infiniteVariables
    finiteVariables := h.finiteVariables
    pointVariables := h.pointVariables
    derivatives := h.derivatives
    measures := h.measures
    constraints := h.constraints
    parameter := fun p q' hq' => by
      obtain ⟨hid, hk, hg⟩ := parameter_eq_ok.1 hq'
      rcases Table.get?_push hg with hg | ⟨-, rfl⟩
      · exact h.parameter p q' (parameter_eq_ok.2 ⟨hid, hk, hg⟩)
      · exact hs
    infinite := fun i v hv =>
      ⟨(h.infinite i v hv).1, fun p hp => hlive ((h.infinite i v hv).2 p hp)⟩
    derivative := fun i d hd => by
      obtain ⟨hp, ⟨name, hname⟩, hbase⟩ := h.derivative i d hd
      exact ⟨hp, ⟨name, hindexed hname⟩, hbase⟩
    point := fun i v hv => by
      obtain ⟨name, parameters, hname, hlength, hround⟩ := h.point i v hv
      refine ⟨name, parameters, hindexed hname, hlength, fun p x hx q' hq' => ?_⟩
      -- the parameter is an old one
      obtain ⟨q₀, hq₀⟩ := h.live_of_indexed hname p (List.of_mem_zip hx).1
      rw [hold hq₀] at hq'
      cases hq'
      exact hround p x hx _ hq₀
    measure := fun i μ hμ => by
      obtain ⟨hkind, hshape, hps⟩ := h.measure i μ hμ
      exact ⟨hkind, hshape, fun p hp => ⟨hlive (hps p hp).1, (hps p hp).2⟩⟩
    stored := h.stored
    equations := fun i d equations hd hi => by
      obtain ⟨q', hq', hrest⟩ := h.equations i d equations hd hi
      exact ⟨q', hold hq', hrest⟩ }

end Model

namespace Modeling

open Operation Workspace Store

variable {w w' : Workspace α} {p : Ref} {full : Prop}

omit [Scalar α] in
/-- Changes that are made as a whole keep the invariant if they keep it where they succeed. -/
theorem keepsInv_change [Scalar α] {β : Type} {f : Model α → Except (Error α) (β × Model α)}
    (h : ∀ m b m', Model.Inv m full → f m = .ok (b, m') → Model.Inv m' full) :
    Moves (KeepsInv full) (change f) :=
  moves_of_inv fun w hw => (ends_change f).2 ⟨fun b m hf => h w.model b m hw hf, fun _ _ => hw⟩

section Lawful

variable [LawfulScalar α]

omit [LawfulScalar α] in
/-- A new parameter has no supports. -/
theorem sound_newParameter {name : String} {domain : Domain α} {digits : Int}
    {method : DerivativeMethod} {info : GenerativeInfo α} {bounds : α × α}
    (h : domain.bounds = .ok bounds) :
    Parameter.Sound ({ name, domain, digits, method, info } : Parameter α) where
  scalar := by
    cases domain with
    | scalar d => exact ⟨d, rfl⟩
    | multivariate d => cases h
    | collection parts => cases h
  ordered _ := .nil
  derived := nofun

/-- How a parameter is added once the number of its digits is known. -/
def addParameterWith (domain : Domain α) (name : String) (supports : Option (List α))
    (count : Int) (method : DerivativeMethod) (digits : Int) : Operation α Ref := do
  if digits < 1 then throw (.supportDigits digits)
  if let .error _ := domain.bounds then throw (.notScalarDomain domain.typeName)
  let name := nameOr name s!"param{(← model).parameters.next}"
  let p ← change fun m =>
    pure (m.pushParameter { name, domain, digits, method, info := method.generativeInfo })
  match supports with
  | some values => set p values (.given .userDefined) false
  | none => if count ≠ 0 then fillIn p (some count) true none
  return p

omit [LawfulScalar α] in
theorem addParameter_eq (domain : Domain α) (name : String) (supports : Option (List α))
    (count : Int) (digits : Option Int) (method : DerivativeMethod) :
    addParameter domain name supports count digits method =
      digits.elim (onEnvironment Environment.defaultDigits) pure >>=
        addParameterWith domain name supports count method := by
  cases digits with
  | some digits => rfl
  | none => rfl

theorem keepsInv_addParameterWith (domain : Domain α) (name : String)
    (supports : Option (List α)) (count : Int) (method : DerivativeMethod) (digits : Int) :
    Moves (KeepsInv full) (addParameterWith domain name supports count method digits) := by
  unfold addParameterWith
  dsimp only
  split
  · exact .throw_bind _ _
  cases hbounds : domain.bounds with
  | error e => exact .throw_bind _ _
  | ok bounds =>
    refine moves_model.bind fun _ => moves_of_inv fun w h => ?_
    rw [ends_bind, ends_change]
    refine ⟨fun p m hpush => ?_, fun _ _ => h⟩
    rw [Except.pure_eq_ok] at hpush
    -- pushing the parameter makes the model stale, so only soundness has to be shown
    obtain ⟨hs, hr⟩ : m.Sound ∧ m.ready = false := by
      cases hpush
      exact ⟨Model.sound_pushParameter h.sound (sound_newParameter hbounds), rfl⟩
    split
    · rw [ends_bind]
      exact (inv_set (.of_stale hs hr) _ _ _).mono (fun _ _ h' => (ends_pure _).2 h')
        fun _ h' => h'
    · rw [ends_ite, ends_bind, ends_pure]
      refine ⟨fun _ => ?_, fun _ => .of_stale hs hr⟩
      exact (inv_of_moves (keepsInv_fillIn _ _ _ _) (.of_stale hs hr)).mono
        (fun _ w' h' => (ends_pure _).2 h') fun _ h' => h'

theorem keepsInv_addParameter (domain : Domain α) (name : String) (supports : Option (List α))
    (count : Int) (digits : Option Int) (method : DerivativeMethod) :
    Moves (KeepsInv full) (addParameter domain name supports count digits method) := by
  rw [addParameter_eq]
  refine Moves.bind ?_ fun digits => keepsInv_addParameterWith _ _ _ _ _ digits
  cases digits with
  | some digits => exact .pure digits
  | none => exact keepsInv_onEnvironment Environment.defaultDigits

/-! ## Point variables -/

omit [LawfulScalar α] [Scalar α] in
/-- Queries leave the state alone. -/
theorem ends_mapM_query {β γ : Type} {xs : List γ} {f : γ → Model α → Except (Error α) β} :
    Ends (xs.mapM fun x => query (f x)) w
      (fun bs w' => w' = w ∧ List.Forall₂ (fun x b => f x w.model = .ok b) xs bs)
      fun w' => w' = w := by
  refine Ends.mapM (fun w' => w' = w) rfl ?_
  rintro x - _ rfl
  exact (ends_query (f x)).2 ⟨fun b hb => ⟨rfl, hb⟩, fun _ _ => rfl⟩

omit [LawfulScalar α] in
theorem checkSupports_eq_ok {m : Model α} {values rounded : List α} {label : Argument Label} :
    m.checkSupports p values label = .ok rounded ↔ ∃ q, m.parameter (.given p) = .ok q ∧
      (∃ l, (Label.storable label : Except (Error α) Label) = .ok l) ∧
      roundList q.digits values = .ok rounded ∧ q.checkBounds rounded = .ok () := by
  simp only [Model.checkSupports, Except.bind_eq_ok, Except.pure_eq_ok, Parameter.round]
  constructor
  · rintro ⟨q, hq, l, hl, r, hr, _, hb, rfl⟩
    exact ⟨q, hq, ⟨l, hl⟩, hr, hb⟩
  · rintro ⟨q, hq, ⟨l, hl⟩, hr, hb⟩
    exact ⟨q, hq, l, hl, rounded, hr, (), hb, rfl⟩

omit [LawfulScalar α] in
theorem storable_of_checkSupports {m : Model α} {values rounded : List α} {label : Label}
    (h : m.checkSupports p values (.given label) = .ok rounded) : label.isSelector = false := by
  obtain ⟨-, -, ⟨l, hl⟩, -⟩ := checkSupports_eq_ok.1 h
  obtain ⟨hgiven, hstorable⟩ := Store.storable_eq_ok.1 hl
  cases hgiven
  exact hstorable

/-- Values that are rounded for a parameter and lie within its bounds. -/
def Checked (m : Model α) (p : Ref) (values : List α) : Prop :=
  ∃ q, m.parameter (.given p) = .ok q ∧ roundList q.digits values = .ok values ∧
    q.checkBounds values = .ok ()

theorem checked_of_checkSupports {m : Model α} {values rounded : List α} {label : Argument Label}
    (h : m.checkSupports p values label = .ok rounded) : Checked m p rounded := by
  obtain ⟨q, hq, -, hr, hbounds⟩ := checkSupports_eq_ok.1 h
  exact ⟨q, hq, roundList_idem hr, hbounds⟩

/-- Values that were checked one by one are rounded for their parameters and within the bounds. -/
theorem checked_flatten {m : Model α} {label : Argument Label} {parameters : List Ref}
    {values : List α} (hlength : values.length = parameters.length) {rounded : List (List α)}
    (h : List.Forall₂ (fun (pair : Ref × α) row => m.checkSupports pair.1 [pair.2] label = .ok row)
      (parameters.zip values) rounded) :
    List.Forall₂ (fun p x => Checked m p [x]) parameters rounded.flatten := by
  -- each row has one value, as each call checks one
  induction parameters generalizing values rounded with
  | nil =>
    rw [List.zip_nil_left] at h
    cases h
    exact .nil
  | cons p parameters ih =>
    cases values with
    | nil => cases hlength
    | cons x values =>
      rw [List.zip_cons_cons] at h
      cases h with
      | cons hrow hrest =>
        obtain ⟨q, -, -, hr, -⟩ := checkSupports_eq_ok.1 hrow
        obtain ⟨-, hr⟩ := roundList_eq_ok.1 hr
        cases hr with
        | cons _ hnil =>
          cases hnil
          exact .cons (checked_of_checkSupports hrow) (ih (Nat.succ.inj hlength) hrest)

/-- A loop that adds supports keeps the invariant and the objects. -/
theorem ends_forIn_add {γ : Type} (pairs : List (Ref × γ)) (values : γ → List α) (label : Label)
    (h : w.model.Inv full) :
    Ends (forIn pairs PUnit.unit fun pair _ => do
        let _ ← add pair.1 (values pair.2) (.given label) false
        return .yield PUnit.unit) w
      (fun _ w' => w'.model.Inv full ∧ w.Keeps w') fun w' => w'.model.Inv full := by
  refine Ends.forIn (fun _ w' => w'.model.Inv full ∧ w.Keeps w') ⟨h, refl_of _ w⟩ ?_
  rintro gone ⟨p, x⟩ rest w₁ - ⟨h₁, hk₁⟩
  rw [ends_bind]
  refine ((inv_add h₁ _ _ _).and ((moves_add p _ _ _).ends w₁)).mono ?_ fun _ h' => h'.1
  rintro _ w₂ ⟨h₂, ht⟩
  exact (ends_pure _).2 ⟨rfl, h₂, trans_of Keeps hk₁ ht.keeps⟩

omit [LawfulScalar α] in
theorem fitsPoint_of_keeps {v : PointVariable α} (hk : w.Keeps w') (h : w.model.FitsPoint v) :
    w'.model.FitsPoint v := by
  obtain ⟨name, parameters, hindexed, hlength, hround⟩ := h
  refine ⟨name, parameters, hk.objects.indexed.2 hindexed, hlength, fun p x hx q hq => ?_⟩
  obtain ⟨q₀, hq₀⟩ := hk.objects.symm.parameter hq
  obtain ⟨q₁, hq₁, hd, -, -⟩ := hk.parameter p q₀ hq₀
  rw [hq] at hq₁
  cases hq₁
  rw [hd]
  exact hround p x hx q₀ hq₀

omit [LawfulScalar α] in
/-- How adding a point variable ends: all values are checked before the first is stored, and nothing
is checked after the last. -/
theorem ends_addPointVariable_of {ok : Ref → Workspace α → Prop} {fail : Workspace α → Prop}
    {variableRef : Handle} {values : List α} {name : String} (hfail : fail w)
    (h : ∀ ref variableName parameters rounded,
      w.model.ownedOf [.infiniteVariable, .derivative] variableRef = .ok ref →
      w.model.indexed ref = .ok (variableName, parameters) → values.length = parameters.length →
      List.Forall₂ (fun pair row => w.model.checkSupports pair.1 [pair.2] (.given .userDefined) =
        .ok row) (parameters.zip values) rounded →
      Ends (forIn (parameters.zip rounded.flatten) PUnit.unit fun pair _ => do
          let _ ← add pair.1 [pair.2] (.given .userDefined) false
          return .yield PUnit.unit) w
        (fun _ w' => ∀ name, let v := { name, ref, values := rounded.flatten }
          ok (w'.model.pushPointVariable v).1
            { w' with model := (w'.model.pushPointVariable v).2 }) fail) :
    Ends (addPointVariable variableRef values name) w ok fail := by
  unfold addPointVariable
  rw [ends_bind, ends_query]
  refine ⟨fun ref href => ?_, fun _ _ => hfail⟩
  rw [ends_bind, ends_query]
  refine ⟨fun ⟨variableName, parameters⟩ hindexed => ?_, fun _ _ => hfail⟩
  dsimp only
  rw [ends_ite, ends_bind, ends_throw]
  refine ⟨fun _ => hfail, fun hlength => ?_⟩
  rw [not_not] at hlength
  rw [ends_bind]
  refine ends_mapM_query.mono ?_ fun w' hw' => hw' ▸ hfail
  -- the values are checked before anything changes
  rintro rounded w₁ ⟨rfl, hrounded⟩
  rw [ends_bind]
  refine (h ref variableName parameters rounded href hindexed hlength hrounded).mono ?_
    fun _ h' => h'
  intro _ w₂ hok
  rw [ends_change]
  refine ⟨fun _ m hpush => ?_, nofun⟩
  rw [Except.pure_eq_ok] at hpush
  cases hpush
  exact hok _

theorem keepsInv_addPointVariable (variableRef : Handle) (values : List α) (name : String) :
    Moves (KeepsInv full) (addPointVariable variableRef values name) := by
  refine moves_of_inv fun w h => ends_addPointVariable_of h
    fun ref variableName parameters rounded _ hindexed hlength hrounded => ?_
  have hfits : ∀ name, w.model.FitsPoint { name, ref, values := rounded.flatten } := fun name => by
    obtain ⟨hsame, hchecked⟩ := List.forall₂_iff_zip.1 (checked_flatten hlength hrounded)
    refine ⟨variableName, parameters, hindexed, hsame.symm, fun p x hx q hq => ?_⟩
    obtain ⟨q', hq', hr, -⟩ := hchecked hx
    rwa [Except.ok.inj (hq.symm.trans hq')]
  refine (ends_forIn_add (parameters.zip rounded.flatten) (fun x => [x]) .userDefined h).mono ?_
    fun _ h' => h'
  rintro _ w₂ ⟨h₂, hk⟩ name
  exact .of_stale (Model.sound_pushPointVariable h₂.sound (fitsPoint_of_keeps hk (hfits _))) rfl

/-! ## Measures -/

omit [LawfulScalar α] in
/-- How adding a measure ends: its parameters and all points are checked before the first point is
stored, and after the last one only the name of the function can be missing. -/
theorem ends_addMeasure_of {ok : Ref → Workspace α → Prop} {fail : Workspace α → Prop}
    {function : Handle} {data : MeasureData α} {name : String} (hfail : fail w)
    (h : ∀ ref functionParameters rows,
      w.model.ownedOf [.infiniteVariable, .derivative, .finiteVariable, .pointVariable, .measure]
        function = .ok ref →
      w.model.parametersOf ref = .ok functionParameters →
      (∀ p ∈ data.parameters, (∃ q, w.model.parameter (.given p) = .ok q) ∧
        p ∈ functionParameters) →
      List.Forall₂ (fun pair row => w.model.checkSupports pair.1 pair.2 (.given data.label) =
        .ok row) (data.parameters.zip data.supports) rows →
      Ends (forIn (data.parameters.zip rows) PUnit.unit fun pair _ => do
          let _ ← add pair.1 pair.2 (.given data.label) false
          return .yield PUnit.unit) w
        (fun _ w' => (∀ e, w'.model.nameOf ref = .error e → fail w') ∧
          ∀ name, let μ := { name, function := ref, data }
            ok (w'.model.pushMeasure μ).1 { w' with model := (w'.model.pushMeasure μ).2 }) fail) :
    Ends (addMeasure function data name) w ok fail := by
  unfold addMeasure
  rw [ends_bind, ends_query]
  refine ⟨fun ref href => ?_, fun _ _ => hfail⟩
  rw [ends_bind, ends_query]
  refine ⟨fun functionParameters hfunction => ?_, fun _ _ => hfail⟩
  rw [ends_bind]
  -- every measured parameter is looked up
  refine (Ends.forIn (fun (gone : List Ref) w' => w' = w ∧ ∀ p ∈ gone,
    (∃ q, w.model.parameter (.given p) = .ok q) ∧ p ∈ functionParameters) ⟨rfl, nofun⟩ ?_).mono ?_
    fun w' hw' => hw'
  · rintro gone p rest w₁ - ⟨hw₁, hgone⟩
    rw [ends_bind, ends_query, hw₁]
    refine ⟨fun q hq => ?_, fun _ _ => hfail⟩
    rw [ends_ite, ends_bind, ends_throw]
    refine ⟨fun _ => hfail, fun hmem => (ends_pure _).2 ⟨rfl, rfl, fun p' hp' => ?_⟩⟩
    rcases List.mem_append.1 hp' with hp' | hp'
    · exact hgone p' hp'
    · rw [List.mem_singleton.1 hp']
      exact ⟨⟨q, hq⟩, not_not.1 hmem⟩
  rintro _ w₁ ⟨hw₁, hlive⟩
  rw [ends_bind]
  refine ends_mapM_query.mono ?_ fun w' hw' => hw'.trans hw₁ ▸ hfail
  rintro rows w₂ ⟨hw₂, hrows⟩
  rw [hw₁] at hw₂ hrows
  rw [ends_bind, hw₂]
  refine (h ref functionParameters rows href hfunction hlive hrows).mono ?_ fun _ h' => h'
  rintro _ w₃ ⟨hname, hok⟩
  have push : ∀ functionName : String, Ends (change fun m => pure (m.pushMeasure
      { name := nameOr name s!"{data.name}({functionName})", function := ref, data }) :
      Operation α Ref) w₃ ok fail := by
    intro functionName
    rw [ends_change]
    refine ⟨fun _ m hpush => ?_, nofun⟩
    rw [Except.pure_eq_ok] at hpush
    cases hpush
    exact hok _
  dsimp only
  rw [ends_ite, ends_bind, ends_query, ends_bind, ends_pure]
  exact ⟨fun _ => ⟨fun functionName _ => push functionName, hname⟩, fun _ => push ""⟩

/-- A measured function is one of at least one parameter, so it is not a parameter. -/
theorem keepsInv_addMeasure (function : Handle) {data : MeasureData α} (hdata : data.WellShaped)
    (name : String) : Moves (KeepsInv full) (addMeasure function data name) := by
  refine moves_of_inv fun w h => ends_addMeasure_of h
    fun ref functionParameters rows href hfunction hlive _ => ?_
  -- the kinds of functions that are accepted include neither parameters nor constraints
  obtain ⟨hkind, hconstraint⟩ : ref.kind ≠ .parameter ∧ ref.kind ≠ .constraint := by
    obtain ⟨-, -, hkind⟩ := Model.ownedOf_eq_ok.1 href
    constructor <;> intro he <;> rw [he] at hkind <;> simp at hkind
  rw [Model.parametersOf_of_ne hconstraint] at hfunction
  refine (ends_forIn_add (data.parameters.zip rows) (fun row => row) data.label h).mono ?_
    fun _ h' => h'
  rintro _ w₃ ⟨h₃, hk⟩
  refine ⟨fun _ _ => h₃, fun name => .of_stale (Model.sound_pushMeasure h₃.sound
    ⟨hkind, hdata, fun p hp => ?_⟩) rfl⟩
  obtain ⟨⟨q, hq⟩, hmem⟩ := hlive p hp
  have hunderlies := Model.underlies_of_functionParameters h.sound hfunction hkind p hmem
  exact ⟨hk.objects.parameter hq, by rwa [Model.Underlies, hk.objects.infiniteVariables]⟩

/-- Deleting a measure keeps the invariant also where its label cannot be taken off a parameter:
in a ready model that happens at an undefined support only. -/
theorem keepsInv_deleteMeasure (handle : Handle) :
    Moves (KeepsInv full) (deleteMeasure handle : Operation α Unit) := by
  refine moves_of_inv fun w h => ?_
  unfold deleteMeasure
  rw [ends_bind, ends_query]
  refine ⟨fun ref _ => ?_, fun _ _ => h⟩
  rw [ends_bind, ends_query]
  refine ⟨fun μ hμ => ?_, fun _ _ => h⟩
  rw [ends_bind, ends_query]
  refine ⟨fun _ _ => ?_, fun _ _ => h⟩
  rw [ends_bind, ends_modifyModel]
  let erased : Model α := { w.model with measures := w.model.measures.erase ref.index }
  have hs : erased.Sound := Model.sound_eraseMeasure h.sound ref.index
  have finish : ∀ w' : Workspace α, w'.model.Sound → Ends
      (modifyModel Model.markStale : Operation α Unit) w'
      (fun _ w' => w'.model.Inv full) fun w' => w'.model.Inv full := fun w' hs' =>
    (ends_modifyModel _).2 (.of_stale hs'.markStale rfl)
  dsimp only
  rw [ends_ite]
  refine ⟨fun hlabel => ?_, fun _ => finish _ hs⟩
  have hl : μ.data.label ≠ .all := by
    intro he
    rw [he] at hlabel
    cases hlabel
  rw [ends_bind]
  refine (Ends.forIn (fun (_ : List Ref) w' => w'.model.Sound ∧
    (∀ p, w'.model.DefinedAt p → erased.DefinedAt p) ∧
    (w'.model.ready = true → erased.ready = true) ∧ Keeps { w with model := erased } w')
    ⟨hs, fun _ h => h, fun h => h, refl_of _ _⟩ ?_).mono (fun _ w' h' => finish w' h'.1)
    fun _ h' => h'
  rintro gone p rest w₁ hps ⟨hs₁, hdef₁, hready₁, hk₁⟩
  have hp : p ∈ μ.data.parameters := hps ▸ by simp
  obtain ⟨⟨q, hq⟩, hunderlies⟩ := (h.sound.measure _ μ (Model.measure_eq_ok.1 hμ).2.2).2.2 p hp
  obtain ⟨q₁, hq₁, -, -, hinfo⟩ := hk₁.parameter p q hq
  have hdef : ∀ w₂, w₁.Touches p w₂ → (w₂.model.DefinedAt p → w₁.model.DefinedAt p) → ∀ p',
      w₂.model.DefinedAt p' → erased.DefinedAt p' := by
    intro w₂ ht hdef₂ p' hd
    by_cases hpp : p' = p
    · exact hdef₁ p' (hpp ▸ hdef₂ (hpp ▸ hd))
    · exact hdef₁ p' ((ht.model.toAlters.definedAt_of_ne hq₁ hpp).1 hd)
  rw [ends_bind]
  refine ((ends_delete_of_sound hl hs₁ hq₁).and ((moves_delete p _).ends w₁)).mono ?_ ?_
  · rintro _ w₂ ⟨⟨hs₂, hdef₂, -⟩, ht⟩
    exact (ends_pure _).2 ⟨rfl, hs₂, hdef w₂ ht hdef₂, fun hr => hready₁ (ht.model.ready hr),
      trans_of Keeps hk₁ ht.keeps⟩
  · rintro w₂ ⟨⟨hs₂, hdef₂, hundef⟩, ht⟩
    refine ⟨hs₂, fun hd hr => ?_⟩
    have hused : ∀ p', w.model.isUsed p' = true → w₂.model.isUsed p' = true := fun p' hu => by
      rw [ht.model.objects.isUsed, hk₁.objects.isUsed]
      exact Model.isUsed_eraseMeasure h.sound ref.index hu
    -- in the model before, which was ready, the measure depended on the parameter
    have hgrid : w.model.GridDefined := fun p' hu => hdef w₂ ht hdef₂ p' (hd p' (hused p' hu))
    have hu := Model.isUsed_of_measure hμ hp
    have hderived := (h.ready hgrid).derived (hready₁ (ht.model.ready hr)) hu hq
    obtain ⟨derived, hlabel, -⟩ := Model.label_of_derived (h.sound.parameter p q hq) hderived
    exact absurd (hd p (hused p hu)) (hundef derived (hinfo ▸ hlabel))

end Lawful

end Modeling

end Discretization
