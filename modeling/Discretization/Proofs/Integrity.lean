import Discretization.Proofs.Events
import Discretization.Proofs.Revisions
import Discretization.Transcription.Query

/-!
# Referential Integrity

Every request revises the objects of a model step by step: operations on supports leave the objects
alone, additions look up what the new object refers to, and deletions look for objects that refer to
the deleted one. So in every model that comes about by requests references are live, no object is
computed from itself, and a deleted reference is dead for good.

## Main definitions

* `Workspace.Revised`: the objects of the second workspace come from the first by revisions;
* `Request.concernsSupports`: a request is not about the objects themselves;
* `Model.Precedes`: requests lead from one model to another;
* `Model.Integral`: referential integrity of a model and of all that comes after it.

## Main results

* `Request.moves_revised`: every request revises the objects;
* `integral_of_requested`: models that come about by requests have referential integrity.
-/

namespace Discretization

variable {α : Type} [Scalar α]

open Operation Workspace Relation

/-- The objects of both workspaces are the same, and so are the rules of their environments. -/
structure Workspace.KeepsObjects (w w' : Workspace α) : Prop where
  objects : w.model.SameObjects w'.model
  environment : w.environment.SameRules w'.environment

/-- The objects of the second workspace come from those of the first by revisions. -/
def Workspace.Revised (w w' : Workspace α) : Prop :=
  ReflTransGen Model.Revises w.model w'.model

namespace Workspace

variable {w w₁ w' : Workspace α}

omit [Scalar α] in
instance : IsPreorder (Workspace α) KeepsObjects where
  refl w := ⟨.refl w.model, refl_of _ w.environment⟩
  trans _ _ _ h h' := ⟨h.objects.trans h'.objects, trans_of _ h.environment h'.environment⟩

omit [Scalar α] in
instance : IsPreorder (Workspace α) Revised where
  refl _ := .refl
  trans _ _ _ h h' := ReflTransGen.trans h h'

omit [Scalar α] in
theorem Revised.of_keepsObjects {β : Type} {op : Operation α β} (h : Moves KeepsObjects op) :
    Moves Revised op :=
  h.mono fun _ _ hs => .single (.same hs.objects)

omit [Scalar α] in
/-- One object more is a revision, whatever happened to supports before and what is marked after. -/
theorem Revised.put {o : Object α} (hs : w.KeepsObjects w₁) (h : w₁.model.Admits o)
    (hs' : (w₁.model.put o).SameObjects w'.model) : Revised w w' :=
  .tail (.tail (.single (.same hs.objects)) (.put h)) (.same hs')

omit [Scalar α] in
theorem Revised.change {β : Type} {f : Model α → Except (Error α) (β × Model α)}
    (h : ∀ m b m', f m = .ok (b, m') → ReflTransGen Model.Revises m m') :
    Moves Revised (change f) :=
  ⟨fun w => (ends_change f).2 ⟨fun b m hf => h w.model b m hf, fun _ _ => refl_of Revised w⟩⟩

end Workspace

/-! ## Operations on supports -/

omit [Scalar α] in
theorem Workspace.KeepsObjects.of_touches {β : Type} {p : Ref} {op : Operation α β}
    (h : Moves (Touches p) op) : Moves KeepsObjects op :=
  h.mono fun _ _ ht => ⟨ht.model.objects, ht.settings, ht.generators⟩

omit [Scalar α] in
theorem Operation.keepsObjects_onEnvironment {β : Type} {action : EnvironmentAction α β}
    (h : Moves Environment.SameRules action) : Moves KeepsObjects (onEnvironment action) :=
  ⟨fun w => (ends_onEnvironment action).2
    ((h.ends w.environment).mono (fun _ _ he => ⟨.refl w.model, he⟩)
      fun _ he => ⟨.refl w.model, he⟩)⟩

omit [Scalar α] in
theorem Operation.keepsObjects_modifyModel {f : Model α → Model α}
    (h : ∀ m : Model α, m.SameObjects (f m)) :
    Moves KeepsObjects (modifyModel f : Operation α Unit) :=
  ⟨fun w => (ends_modifyModel f).2 ⟨h w.model, refl_of _ w.environment⟩⟩

namespace Store

theorem keepsObjects_add (p : Ref) (values : List α) (label : Argument Label) (checked : Bool) :
    Moves KeepsObjects (add p values label checked) :=
  KeepsObjects.of_touches (moves_add p values label checked)

theorem keepsObjects_setInfo (p : Ref) (info : Argument (GenerativeInfo α)) :
    Moves KeepsObjects (setInfo p info) := by
  cases info with
  | mistyped value => exact .throw _
  | given info =>
    exact (KeepsObjects.of_touches (moves_resetGenerative p)).bind fun _ =>
      (moves_query _).bind fun _ =>
        (keepsObjects_modifyModel fun m => Model.sameObjects_modifyParameter m p _).bind fun _ =>
          keepsObjects_modifyModel fun m => Model.sameObjects_markStaleIfUsed m p

theorem keepsObjects_setMethod (p : Ref) (method : Argument DerivativeMethod) :
    Moves KeepsObjects (setMethod (α := α) p method) := by
  cases method with
  | mistyped value => exact .throw _
  | given method =>
    exact (moves_query _).bind fun _ =>
      (KeepsObjects.of_touches (moves_resetEquations p)).bind fun _ =>
        (KeepsObjects.of_touches (moves_resetGenerative p)).bind fun _ =>
          (keepsObjects_modifyModel fun m => Model.sameObjects_modifyParameter m p _).bind fun _ =>
            keepsObjects_modifyModel fun m => Model.sameObjects_markStaleIfUsed m p

theorem keepsObjects_generateAndAdd (p : Ref) (method : Option Label) (count : Option Int)
    (extra : Bool) (source : Option Nat) :
    Moves KeepsObjects (generateAndAdd (α := α) p method count extra source) :=
  moves_generateAndAdd (keepsObjects_add p) keepsObjects_onEnvironment method count
    extra source

theorem keepsObjects_fillIn (p : Ref) (count : Option Int) (extend : Bool)
    (source : Option Nat) : Moves KeepsObjects (fillIn (α := α) p count extend source) :=
  moves_fillIn (keepsObjects_generateAndAdd p) keepsObjects_onEnvironment count extend source

end Store

theorem Evaluation.keepsObjects_evaluate (d : Ref) : Moves KeepsObjects (evaluate (α := α) d) := by
  refine (moves_query _).bind fun derivative => moves_model.bind fun m => ?_
  split
  · exact .pure _
  · exact (moves_query _).bind fun object =>
      (KeepsObjects.of_touches (Store.moves_addGenerative object.parameter)).bind fun _ =>
        (moves_query _).bind fun _ => (moves_check _).bind fun _ =>
          (keepsObjects_modifyModel fun m => (Model.sameObjects_storeEquations m _ _).trans
            (Model.sameObjects_modifyParameter _ _ _)).bind fun _ => .pure _

theorem Transcription.keepsObjects_restoreSupports :
    Moves KeepsObjects (restoreSupports (α := α)) :=
  moves_restoreSupports fun p values _ => Store.keepsObjects_add p values _ true

theorem Transcription.keepsObjects_prepareSupports :
    Moves KeepsObjects (prepareSupports (α := α)) :=
  moves_prepareSupports (fun p => Store.keepsObjects_fillIn p none false none)
    keepsObjects_restoreSupports (fun p => KeepsObjects.of_touches (Store.moves_addGenerative p))
    (Evaluation.moves_evaluateAll Evaluation.keepsObjects_evaluate)

theorem Transcription.keepsObjects_build (verbose : Option Bool) :
    Moves KeepsObjects (build (α := α) verbose) :=
  moves_build keepsObjects_prepareSupports
    (fun _ => keepsObjects_modifyModel fun _ => ⟨rfl, rfl, rfl, rfl, rfl, rfl, rfl, rfl, rfl, rfl⟩)
    keepsObjects_onEnvironment verbose

/-! ## Additions and deletions -/

namespace Model

variable {m m' : Model α} {ref : Ref}

omit [Scalar α] in
/-- A new variable has live parameters, none of them twice. -/
theorem revises_addInfiniteVariable {name : String} {parameters : List Handle}
    {lower upper : Option α} {start : Start α} {integer : Bool}
    (h : m.addInfiniteVariable name parameters lower upper start integer = .ok (ref, m')) :
    ReflTransGen Revises m m' := by
  obtain ⟨live, hlive, hnodup, rfl⟩ := exists_of_addInfiniteVariable h
  let v : InfiniteVariable α := { name, parameters := live, lower, upper, start, integer }
  have hfits : m.Admits (.infiniteVariable v) :=
    ⟨fun p hp => mem_liveRefs_parameter.2 (hlive p hp), hnodup⟩
  exact .tail (.single (.put hfits)) (.same (sameObjects_markStale _))

omit [Scalar α] in
/-- A new derivative is one of a live variable or derivative, with respect to a parameter of it. -/
theorem revises_addDerivative {variableRef : Handle} {p : Ref} {name : String}
    {parameterName : Except (Error α) String}
    (h : m.addDerivative variableRef p name parameterName = .ok (ref, m')) :
    ReflTransGen Revises m m' := by
  obtain ⟨v, variableName, parameters, q, -, hindexed, hp, -, rfl⟩ := exists_of_addDerivative h
  have hfits : m.Admits (.derivative
      { name := nameOr name s!"d{variableName}/d{q.name}", ref := v, parameter := p,
        parameters }) :=
    ⟨hp, variableName, hindexed⟩
  exact .tail (.single (.put hfits)) (.same (sameObjects_markStale _))

/-- The terms of a new constraint are live, and so are the parameters that it restricts. -/
theorem revises_addConstraint {terms : List (α × Handle)} {sense name : String} {rhs : α}
    {restrictions : List (Handle × (α × α))}
    (h : m.addConstraint terms sense rhs name restrictions = .ok (ref, m')) :
    ReflTransGen Revises m m' := by
  obtain ⟨terms', relation, restrictions', hterms, hrestrictions, rfl⟩ := exists_of_addConstraint h
  -- whatever can be a term lies below constraints
  have live : ∀ term ∈ terms', m.Live term.2 ∧ term.2.kind.level ≤ 3 := by
    intro term hterm
    obtain ⟨hkind, o, ho⟩ := hterms term hterm
    obtain ⟨hid, hfound⟩ := object_eq_ok.1 ho
    have low : ∀ kind ∈ [EntityKind.parameter, .infiniteVariable, .derivative, .finiteVariable,
        .pointVariable, .measure], kind.level ≤ 3 := by decide
    exact ⟨live_iff.2 ⟨hid, o, hfound⟩, low _ hkind⟩
  -- restrictions are on live parameters
  have boxes : ∀ box ∈ restrictions', box.1 ∈ m.liveRefs .parameter := fun box hbox =>
    mem_liveRefs_parameter.2 (hrestrictions box hbox).2
  let c : Constraint α :=
    { name := nameOr name s!"c{m.constraints.next}", terms := terms', sense := relation, rhs,
      restrictions := restrictions' }
  have hfits : m.Admits (.constraint c) := ⟨live, boxes⟩
  exact .tail (.single (.put hfits)) (.same (sameObjects_markStale _))

omit [Scalar α] in
/-- What is asked for its parameters is live, unless it has none by its kind. -/
theorem live_of_parametersOf {parameters : List Ref}
    (hkind : ref.kind ∈ [.infiniteVariable, .derivative, .finiteVariable, .pointVariable, .measure])
    (h : m.parametersOf ref = .ok parameters) :
    (ref.kind = .finiteVariable ∨ ref.kind = .pointVariable) ∧ parameters = [] ∨
      m.Live ref ∧ ref.kind.level ≤ 3 := by
  have low : ∀ kind ∈ [EntityKind.infiniteVariable, .derivative, .finiteVariable, .pointVariable,
      .measure], kind ≠ .constraint ∧ kind ≠ .parameter ∧ kind.level ≤ 3 := by decide
  obtain ⟨hconstraint, hparameter, hlevel⟩ := low _ hkind
  rw [parametersOf_of_ne hconstraint, functionParameters_eq_ok] at h
  rcases h with ⟨h, -⟩ | h | ⟨μ, -, hμ, -⟩ | ⟨name, hi⟩
  · exact absurd h hparameter
  · exact .inl h
  · obtain ⟨hid, hk, hg⟩ := measure_eq_ok.1 hμ
    exact .inr ⟨live_iff.2 ⟨hid, .measure μ, find?_eq_some.2 ⟨hk, hg⟩⟩, hlevel⟩
  · exact .inr ⟨(live_of_indexed hi).1, hlevel⟩

omit [Scalar α] in
/-- No object of the scanned kinds is computed from a reference that is found unreferenced. -/
theorem not_mem_sources_of_checkUnreferenced {name : String} {kinds : List EntityKind}
    (h : m.checkUnreferenced ref name kinds = .ok ()) {r : Ref} {o : Object α}
    (hfound : m.find? r = some o) (hkind : o.kind ∈ kinds) : ref ∉ o.sources := by
  have scanned : ∀ {row}, row ∈ m.dependencies o.kind → ref ∉ row.2 := fun hrow =>
    not_mem_of_checkUnreferenced h o.kind hkind _ hrow
  have hget := find?_eq_some.1 hfound
  cases o with
  | pointVariable v =>
    exact scanned (List.mem_map.2 ⟨v, Table.mem_objects_of_get? hget.2, rfl⟩)
  | derivative d => exact scanned (List.mem_map.2 ⟨d, Table.mem_objects_of_get? hget.2, rfl⟩)
  | measure μ => exact scanned (List.mem_map.2 ⟨μ, Table.mem_objects_of_get? hget.2, rfl⟩)
  | constraint c => exact scanned (List.mem_map.2 ⟨c, Table.mem_objects_of_get? hget.2, rfl⟩)
  | _ => nofun

omit [Scalar α] in
/-- A deleted derivative is one that nothing is computed from. -/
theorem revises_deleteDerivative {handle : Handle} (h : m.deleteDerivative handle = .ok ((), m')) :
    ReflTransGen Revises m m' := by
  obtain ⟨ref, d, _, q, hd, hfree, rfl, -, rfl⟩ := exists_of_deleteDerivative h
  obtain ⟨hid, hkind, -⟩ := derivative_eq_ok.1 hd
  have hfree : ∀ r o, m.find? r = some o → m.Admits o → ref ∉ o.sources := fun r o ho _ => by
    by_cases hmem : o.kind ∈ [EntityKind.derivative, .measure, .constraint, .pointVariable]
    · exact not_mem_sources_of_checkUnreferenced hfree ho hmem
    · -- objects of the other kinds are computed from nothing
      cases o <;> first | exact List.not_mem_nil | exact absurd hmem (by simp [Object.kind])
  have hremoved : m.Revises (m.remove ref) := .remove hid (by rw [hkind]; rfl) hfree
  refine .tail (.single hremoved) (.same ?_)
  have herase : m.remove ref = { m with derivatives := m.derivatives.erase ref.index } := by
    rw [remove, hkind]
  have hdropped : (m.remove ref).SameObjects
      { m.dropEquations ref.index with derivatives := m.derivatives.erase ref.index } := by
    rw [herase]
    exact ⟨rfl, rfl, rfl, rfl, rfl, rfl, rfl, rfl, rfl, rfl⟩
  refine (hdropped.trans ?_).trans (sameObjects_markStale _)
  split
  · exact .refl _
  · exact sameObjects_modifyParameter _ _ _

omit [Scalar α] in
/-- Nothing is computed from constraints. -/
theorem revises_deleteConstraint {handle : Handle} (h : m.deleteConstraint handle = .ok ((), m')) :
    ReflTransGen Revises m m' := by
  simp only [deleteConstraint, Except.bind_eq_ok, Except.pure_eq_ok, Prod.mk.injEq,
    true_and] at h
  obtain ⟨ref, -, c, hc, rfl⟩ := h
  obtain ⟨hid, hkind, -⟩ := constraint_eq_ok.1 hc
  have hremoved : m.Revises (m.remove ref) :=
    .remove hid (by rw [hkind]; rfl) fun r o _ hadmits hmem => by
      rcases hadmits.level_lt hmem with hlt | ⟨-, hne, -⟩
      · rw [hkind] at hlt
        cases o <;> simp [Object.kind, EntityKind.level] at hlt
      · exact hne hkind
  refine .tail (.single hremoved) (.same ?_)
  rw [remove, hkind]
  exact sameObjects_markStale _

end Model

namespace Modeling

/-- The supports are stored before an object is added, which leaves all objects as they are. -/
theorem keepsObjects_forIn_add {γ : Type} (pairs : List (Ref × γ)) (values : γ → List α)
    (label : Label) :
    Moves KeepsObjects (forIn pairs PUnit.unit fun pair _ => do
      let _ ← Store.add pair.1 (values pair.2) (.given label) false
      return .yield PUnit.unit) :=
  .forIn (fun _ _ => (Store.keepsObjects_add _ _ _ _).bind fun _ => .pure _) _

/-- A new point variable is one of a live variable or derivative. -/
theorem revised_addPointVariable (variableRef : Handle) (values : List α) (name : String) :
    Moves Revised (addPointVariable variableRef values name) := by
  refine ⟨fun w => ends_addPointVariable_of (refl_of Revised w)
    fun ref variableName parameters rounded _ hi _ _ => ?_⟩
  refine ((keepsObjects_forIn_add (parameters.zip rounded.flatten) (fun x => [x])
    .userDefined).ends w).mono (fun _ w' hs name => ?_) fun _ h => .single (.same h.objects)
  have hfits : w'.model.Admits (.pointVariable ⟨name, ref, rounded.flatten⟩) :=
    ⟨(variableName, parameters), hs.objects.indexed.2 hi⟩
  exact Revised.put hs hfits (Model.sameObjects_markStale _)

/-- The function of a new measure is live, and so are the parameters that it integrates over. -/
theorem revised_addMeasure (function : Handle) (data : MeasureData α) (name : String) :
    Moves Revised (addMeasure function data name) := by
  refine ⟨fun w => ends_addMeasure_of (refl_of Revised w)
    fun ref functionParameters rows href hfunction hmeasured _ => ?_⟩
  obtain ⟨-, -, hkind⟩ := Model.ownedOf_eq_ok.1 href
  have hlive := Model.live_of_parametersOf hkind hfunction
  have hfits : ∀ name, w.model.Admits (.measure ⟨name, ref, data⟩) := fun _ => by
    refine ⟨fun p hp => Model.mem_liveRefs_parameter.2 (hmeasured p hp).1, ?_, ?_⟩
    · -- a function without parameters is measured over none of them
      rcases hlive with ⟨-, hnone⟩ | ⟨hlive, -⟩
      · exact .inr (List.eq_nil_iff_forall_not_mem.2 fun p hp => by
          simpa [hnone] using (hmeasured p hp).2)
      · exact .inl hlive
    · rcases hlive with ⟨hfinite | hpoint, -⟩ | hlive
      · exact .inl hfinite
      · exact .inr (.inl hpoint)
      · exact .inr (.inr hlive)
  refine ((keepsObjects_forIn_add (data.parameters.zip rows) (fun row => row) data.label).ends
    w).mono (fun _ w' hs => ⟨fun _ _ => .single (.same hs.objects), fun name => ?_⟩)
    fun _ h => .single (.same h.objects)
  exact Revised.put hs ((hfits name).of_sameObjects hs.objects) (Model.sameObjects_markStale _)

/-- Taking the label of a measure off its parameters leaves the objects as they are. -/
theorem keepsObjects_stripMeasure (data : MeasureData α) :
    Moves KeepsObjects (do
      if data.label.kind = .uniqueMeasure then
        for p in data.parameters do
          Store.delete p data.label
      modifyModel (·.markStale) : Operation α Unit) := by
  have stale : Moves KeepsObjects (modifyModel (·.markStale) : Operation α Unit) :=
    keepsObjects_modifyModel Model.sameObjects_markStale
  dsimp only
  split
  · exact Moves.bind (.forIn (fun p _ => (KeepsObjects.of_touches (Store.moves_delete p _)).bind
      fun _ => .pure _) _) fun _ => stale
  · exact stale

/-- A deleted measure is one that nothing is computed from. -/
theorem revised_deleteMeasure (handle : Handle) :
    Moves Revised (deleteMeasure handle : Operation α Unit) := by
  refine ⟨fun w => ?_⟩
  have hrefl := refl_of Revised w
  unfold deleteMeasure
  rw [ends_bind, ends_query]
  refine ⟨fun ref _ => ?_, fun _ _ => hrefl⟩
  rw [ends_bind, ends_query]
  refine ⟨fun μ hμ => ?_, fun _ _ => hrefl⟩
  obtain ⟨hid, hkind, -⟩ := Model.measure_eq_ok.1 hμ
  rw [ends_bind, ends_query]
  refine ⟨fun _ hfree => ?_, fun _ _ => hrefl⟩
  have hremoved : w.model.Revises (w.model.remove ref) :=
    .remove hid (by rw [hkind]; rfl) fun r o ho hadmits hmem => by
      by_cases hscanned : o.kind ∈ [EntityKind.measure, .constraint]
      · exact Model.not_mem_sources_of_checkUnreferenced hfree ho hscanned hmem
      · -- objects of the other kinds lie below measures
        have := hadmits.level_lt hmem
        rw [hkind] at this
        cases o <;> simp_all [Object.kind, EntityKind.level]
  have herase : w.model.remove ref =
      { w.model with measures := w.model.measures.erase ref.index } := by rw [Model.remove, hkind]
  rw [ends_bind, ends_modifyModel, ← herase]
  exact ((keepsObjects_stripMeasure μ.data).ends _).mono
    (fun _ _ h => .tail (.single hremoved) (.same h.objects))
    fun _ h => .tail (.single hremoved) (.same h.objects)

end Modeling

/-! ## Requests -/

namespace Request

/-- Whether a request is about supports, equations or a transcription, and not about the objects
themselves. -/
def concernsSupports : Request α → Bool
  | setSupports _ _ _ _ | addSupports _ _ _ _ | deleteSupports _ _ | generateSupports _ _ _ _ _
  | fillInSupports _ _ _ _ | addGenerativeSupports _ | setGenerativeInfo _ _
  | setDerivativeMethod _ _ | evaluate _ | evaluateAll | restoreSupports | prepareSupports
  | build _ => true
  | _ => false

/-- Requests about supports leave the objects as they are. -/
theorem moves_keepsObjects {request : Request α} (h : request.concernsSupports = true) :
    Moves KeepsObjects request.operation := by
  cases request with
  | setSupports p values label force =>
    exact KeepsObjects.of_touches (Store.moves_set p values label force)
  | addSupports p values label checked =>
    exact (Store.keepsObjects_add p values label checked).bind fun _ => .pure _
  | deleteSupports p label => exact KeepsObjects.of_touches (Store.moves_delete p label)
  | generateSupports p method count extra source =>
    exact (Store.keepsObjects_generateAndAdd p method count extra source).bind fun _ => .pure _
  | fillInSupports p count extend source => exact Store.keepsObjects_fillIn p count extend source
  | addGenerativeSupports p => exact KeepsObjects.of_touches (Store.moves_addGenerative p)
  | setGenerativeInfo p info => exact Store.keepsObjects_setInfo p info
  | setDerivativeMethod p method => exact Store.keepsObjects_setMethod p method
  | evaluate derivative =>
    exact (Evaluation.keepsObjects_evaluate derivative).bind fun _ => .pure _
  | evaluateAll => exact Evaluation.moves_evaluateAll Evaluation.keepsObjects_evaluate
  | restoreSupports => exact Transcription.keepsObjects_restoreSupports
  | prepareSupports => exact Transcription.keepsObjects_prepareSupports
  | build verbose => exact (Transcription.keepsObjects_build verbose).bind fun _ => .pure _
  | _ => cases h

/-- Every request revises the objects, also where it fails halfway. -/
theorem moves_revised (request : Request α) : Moves Revised request.operation := by
  have kept : ∀ {β : Type} {op : Operation α β}, Moves KeepsObjects op → Moves Revised op :=
    Revised.of_keepsObjects
  cases request with
  | addParameter domain name supports count digits method =>
    refine (Modeling.moves_addParameter (fun q _ _ _ w => ?_)
      (fun p values => kept (KeepsObjects.of_touches (Store.moves_set p values _ false)))
      (fun p => kept (Store.keepsObjects_fillIn p _ true none))
      fun h => kept (keepsObjects_onEnvironment h)).bind fun _ => .pure _
    have hfits : w.model.Admits (.parameter q) := trivial
    exact .tail (.single (.put hfits)) (.same (Model.sameObjects_markStale _))
  | addInfiniteVariable name parameters lower upper start integer =>
    exact (Revised.change fun _ _ _ hm => Model.revises_addInfiniteVariable hm).bind
      fun _ => .pure _
  | addFiniteVariable v =>
    refine (Revised.change fun m b m' hm => ?_).bind fun _ => .pure _
    rw [Except.pure_eq_ok] at hm
    obtain rfl : (m.addFiniteVariable v).2 = m' := congrArg Prod.snd hm
    have hfits : m.Admits (.finiteVariable v) := trivial
    exact .tail (.single (.put hfits)) (.same (Model.sameObjects_markStale _))
  | addPointVariable variableRef values name =>
    exact (Modeling.revised_addPointVariable _ _ _).bind fun _ => .pure _
  | addDerivative variableRef p name parameterName =>
    exact (Revised.change fun _ _ _ hm => Model.revises_addDerivative hm).bind fun _ => .pure _
  | deleteDerivative handle =>
    exact Revised.change fun _ _ _ hm => Model.revises_deleteDerivative hm
  | addMeasure function data shaped name =>
    exact (Modeling.revised_addMeasure _ _ _).bind fun _ => .pure _
  | deleteMeasure handle => exact Modeling.revised_deleteMeasure handle
  | addConstraint terms sense rhs name restrictions =>
    exact (Revised.change fun _ _ _ hm => Model.revises_addConstraint hm).bind fun _ => .pure _
  | deleteConstraint handle =>
    exact Revised.change fun _ _ _ hm => Model.revises_deleteConstraint hm
  | markStale => exact kept (keepsObjects_modifyModel Model.sameObjects_markStale)
  | _ => exact kept (moves_keepsObjects rfl)

end Request

namespace Model

variable {m m' : Model α} {ref : Ref}

theorem revises_perform (request : Request α) (w : Workspace α) :
    ReflTransGen Revises w.model (request.perform w) := by
  obtain ⟨w', hw', hrevised⟩ := Request.moves_perform request.moves_revised w
  exact hw' ▸ hrevised

end Model

theorem Requested.intact {m : Model α} (h : Requested m) : m.Intact := by
  induction h with
  | start id name => exact Model.intact_start id name
  | @step m _ e request ih =>
    have keeps : ∀ {m' : Model α}, ReflTransGen Model.Revises m m' → m'.Intact := fun hr => by
      induction hr with
      | refl => exact ih
      | tail _ hstep ih => exact ih.revise hstep
    exact keeps (Model.revises_perform request ⟨e, m⟩)

end Discretization
