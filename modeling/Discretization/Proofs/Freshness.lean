import Discretization.Proofs.Preparations
import Discretization.Proofs.Relabellings
import Discretization.Proofs.StoredEquations

/-!
# Stored Equations Are Those of the Current Supports

The equations of a derivative are stored when they are built, and taken away when a support comes or
goes. Two changes leave them where they are: a stored support gains a label, and the way in which
supports are derived is replaced while none are in place. Without the second, equations in store
were built from the supports as they are now, except for labels gained since. Labels can move the
end of an element of collocation, namely where a derived support gains one, and only there the
stored equations are out of date.

## Main definitions

* `Model.Backed`: stored equations were built from the supports except for some labels;
* `Spared`: the models that come about without replacing the way in which supports are derived under
  stored equations.

## Main results

* `Spared.backed`: stored equations are always backed by the supports;
* `evaluate_eq_stored`, `steady_of_evaluate_eq`: evaluating again gives the stored equations exactly
  where the parameter is steady;
* `not_evaluate_eq_stored`: it is not for all models.
-/

namespace Discretization

variable {α : Type} [Scalar α]

/-! ## Equations backed by supports -/

/-- Equations were built from the supports of a parameter except for labels gained since, the flag
of stored equations is set, and no derived supports are missing. -/
structure Parameter.Backs (q : Parameter α) (derivative variableRef : Ref)
    (equations : List (Equation α)) : Prop where
  flag : q.hasEquations = true
  derived : q.hasGenerative = true ∨ q.info = .none
  built : ∃ q₀ : Parameter α, q₀.Relabels q ∧
    Evaluation.build derivative variableRef q₀ = .ok equations

namespace Model

variable {m m' : Model α} {p : Ref} {q q' : Parameter α}

/-- All stored equations are those of live derivatives, backed by the supports of their
parameters. -/
structure Backed (m : Model α) : Prop where
  derivatives : m.derivatives.WellFormed
  stored : ∀ i equations, m.equations? i = some equations → ∃ d q,
    m.derivatives.get? i = some d ∧ m.parameter (.given d.parameter) = .ok q ∧
      q.Backs ⟨m.id, .derivative, i⟩ d.ref equations

/-- All supports of all parameters have labels. -/
def Labelled (m : Model α) : Prop :=
  ∀ p q, m.parameter (.given p) = .ok q → ∀ s ∈ q.supports.supports, s.Labelled

/-- Being backed is a relation between stored equations and their parameters. -/
theorem backed_iff : m.Backed ↔ m.Relates Parameter.Backs :=
  ⟨fun h => ⟨h.derivatives, h.stored⟩, fun h => ⟨h.derivatives, h.stored⟩⟩

/-- A parameter whose flag is not set has no stored equations. -/
theorem Backed.unevaluated (h : m.Backed) (hq : m.parameter (.given p) = .ok q)
    (hflag : q.hasEquations = false) : m.Unevaluated p := by
  refine (backed_iff.1 h).unevaluated hq fun _ _ _ hbacks => ?_
  -- the flag of the parameter is set as soon as one of its derivatives has equations
  have hset := hbacks.flag
  rw [hflag] at hset
  cases hset

/-- Nothing needs to be backed by a parameter without stored equations. -/
theorem Backed.alter_of_unevaluated (h : m.Backed) (ht : m.Alters p m')
    (hq : m.parameter (.given p) = .ok q) (hu : m'.Unevaluated p) : m'.Backed :=
  backed_iff.2 ((backed_iff.1 h).alter_of_unevaluated ht hq hu)

/-- The same equations stay backed by a parameter that backs as much as before. -/
theorem Backed.alter_of_backs (h : m.Backed) (ht : m.Alters p m')
    (hq : m.parameter (.given p) = .ok q) (hq' : m'.parameter (.given p) = .ok q')
    (he : ∀ i, m'.equations? i = m.equations? i)
    (hbacks : ∀ derivative variableRef equations, q.Backs derivative variableRef equations →
      q'.Backs derivative variableRef equations) : m'.Backed :=
  backed_iff.2 ((backed_iff.1 h).alter_of_imp ht hq hq' he hbacks)

theorem Backed.markStaleIfUsed (h : m.Backed) (hq : m.parameter (.given p) = .ok q) :
    (m.markStaleIfUsed p).Backed :=
  h.alter_of_backs (touches_markStaleIfUsed m p p).toAlters hq
    (by rw [parameter_markStaleIfUsed, hq]) (equations?_markStaleIfUsed ·) fun _ _ _ hb => hb

/-- A parameter without stored equations can change. -/
theorem Backed.modifyParameter (h : m.Backed) (hq : m.parameter (.given p) = .ok q)
    (hu : m.Unevaluated p) {f : Parameter α → Parameter α}
    (hf : ∀ q, (f q).digits = q.digits ∧ (f q).domain = q.domain) :
    (m.modifyParameter p f).Backed ∧ (m.modifyParameter p f).Unevaluated p := by
  have hu' : (m.modifyParameter p f).Unevaluated p :=
    hu.of_objects (sameObjects_modifyParameter m p f) fun _ => rfl
  exact ⟨h.alter_of_unevaluated (alters_modifyParameter m p f hf) hq hu', hu'⟩

omit [Scalar α] in
theorem Unevaluated.markStaleIfUsed (h : m.Unevaluated p) (p' : Ref) :
    (m.markStaleIfUsed p').Unevaluated p :=
  h.of_objects (sameObjects_markStaleIfUsed m p') (equations?_markStaleIfUsed ·)

end Model

/-! ## Operations keep equations backed -/

namespace Store

open Operation Workspace

variable {w w' : Workspace α} {p : Ref} {q : Parameter α}

/-- Stored equations stay backed. -/
def KeepsBacked (w w' : Workspace α) : Prop := w.model.Backed → w'.model.Backed

theorem moves_of_backed {β : Type} {op : Operation α β}
    (h : ∀ w : Workspace α, w.model.Backed →
      Ends op w (fun _ w' => w'.model.Backed) fun w' => w'.model.Backed) : Moves KeepsBacked op :=
  .of_keeps h

theorem Cleared.backed (h : Cleared p q w w') (hb : w.model.Backed)
    (hq : w.model.parameter (.given p) = .ok q) : w'.model.Backed ∧ w'.model.Unevaluated p := by
  have hu := h.unevaluated fun hflag => hb.unevaluated hq hflag
  exact ⟨hb.alter_of_unevaluated h.touches.model.toAlters hq hu, hu⟩

/-- Deleting takes the stored equations away first. -/
theorem backed_delete (hb : w.model.Backed) (p : Ref) (label : Label) :
    Ends (delete p label) w (fun _ w' => w'.model.Backed ∧ w'.model.Unevaluated p)
      fun w' => w'.model.Backed := by
  -- all supports go at once, those of a label one by one, and that can fail halfway
  by_cases hl : label = .all
  · subst hl
    refine ends_delete_all hb fun q w₁ hq hw₁ => ?_
    obtain ⟨hb₁, hu₁⟩ := hw₁.backed hb hq
    let f (q : Parameter α) : Parameter α :=
      { q with supports := .empty, hasGenerative := false, hasInternal := false }
    obtain ⟨hb₂, hu₂⟩ := hb₁.modifyParameter (f := f) hw₁.parameter hu₁ fun _ => ⟨rfl, rfl⟩
    exact ⟨hb₂.markStaleIfUsed (Model.parameter_modifyParameter hw₁.parameter f),
      hu₂.markStaleIfUsed p⟩
  · refine ends_delete hl (fun _ _ => hb) fun q w₁ hq hw₁ => ?_
    obtain ⟨hb₁, hu₁⟩ := hw₁.backed hb hq
    refine ⟨fun _ _ => hb₁, fun derived _ supports failed _ => ?_⟩
    let f (q : Parameter α) : Parameter α := { q with supports, hasGenerative := false }
    let g (q : Parameter α) : Parameter α :=
      { q with hasInternal := q.hasInternal && supports.hasInternal }
    obtain ⟨hb₂, hu₂⟩ := hb₁.modifyParameter (f := f) hw₁.parameter hu₁ fun _ => ⟨rfl, rfl⟩
    have hq₂ := Model.parameter_modifyParameter hw₁.parameter f
    obtain ⟨hb₃, hu₃⟩ := hb₂.modifyParameter (f := g) hq₂ hu₂ fun _ => ⟨rfl, rfl⟩
    -- a failure halfway leaves the supports changed, but not the equations stored
    exact ⟨fun _ => hb₂, fun _ =>
      ⟨hb₃.markStaleIfUsed (Model.parameter_modifyParameter hq₂ g), hu₃.markStaleIfUsed p⟩⟩

/-- Taking derived supports away takes the stored equations away, if there were derived ones. -/
theorem backed_resetGenerative (hb : w.model.Backed) (hq : w.model.parameter (.given p) = .ok q)
    (hu : q.hasGenerative = false → w.model.Unevaluated p) :
    Ends (resetGenerative p) w (fun _ w' => w'.model.Backed ∧ w'.model.Unevaluated p)
      fun w' => w'.model.Backed := by
  simp only [resetGenerative, ends_bind, ends_query, hq, reduceCtorEq, false_implies, implies_true,
    and_true, Except.ok.injEq, forall_eq']
  rw [ends_ite]
  refine ⟨fun _ => ?_, fun hmissing => (ends_pure _).2 ⟨hb, hu (by simpa using hmissing)⟩⟩
  rw [ends_bind, ends_check]
  exact ⟨fun derived _ => backed_delete hb p derived, fun _ _ => hb⟩

theorem backed_resetEquations (hb : w.model.Backed) (hq : w.model.parameter (.given p) = .ok q) :
    Ends (resetEquations p) w (fun _ w' => w'.model.Backed ∧ w'.model.Unevaluated p ∧
      w'.model.parameter (.given p) = .ok { q with hasEquations := false }) fun _ => False :=
  (ends_resetEquations hq).mono (fun _ _ h => ⟨(h.1.backed hb hq).1, (h.1.backed hb hq).2,
    h.1.parameter⟩) fun _ h => h

/-! ### Adding values -/

omit [Scalar α] in
theorem subset_insert (label : Label) (labels : List Label) : labels ⊆ label.insert labels :=
  fun _ hl => Label.mem_insert.2 (.inl hl)

/-- Where no added value is new, supports only gain labels. -/
theorem supports_addAll_of_not_new {m : SupportMap α} {values : List α} {label : Label}
    (h : (m.addAll values label).1 = false) : ∃ g : Support α → Support α,
      (∀ s, (g s).value = s.value ∧ s.labels ⊆ (g s).labels) ∧
        (m.addAll values label).2.supports = m.supports.map g := by
  induction values generalizing m with
  | nil => exact ⟨id, fun s => ⟨rfl, List.Subset.refl _⟩, (List.map_id _).symm⟩
  | cons value rest ih =>
    rw [SupportMap.addAll_cons] at h ⊢
    obtain ⟨hvalue, hrest⟩ := Bool.or_eq_false_iff.1 h
    -- values are added from the left: the first is there, so it adds a label to its own support
    have hc : m.contains value = true := by
      by_contra hc
      rw [Bool.not_eq_true] at hc
      rw [SupportMap.add_of_not_contains label hc] at hvalue
      cases hvalue
    obtain ⟨g, hg, hsupports⟩ := ih hrest
    let first (s : Support α) : Support α :=
      if s.value == value then { s with labels := label.insert s.labels } else s
    have hfirst : ∀ s, (first s).value = s.value ∧ s.labels ⊆ (first s).labels := by
      intro s
      dsimp only [first]
      split
      · exact ⟨rfl, subset_insert label s.labels⟩
      · exact ⟨rfl, List.Subset.refl _⟩
    refine ⟨g ∘ first, fun s => ⟨(hg _).1.trans (hfirst s).1,
      List.Subset.trans (hfirst s).2 (hg _).2⟩, ?_⟩
    rw [hsupports, SupportMap.add, if_pos hc, List.map_map]

/-- What a parameter backs, it backs with more labels. -/
theorem backs_addAll {values : List α} {label : Label} {derivative variableRef : Ref}
    {equations : List (Equation α)} (h : q.Backs derivative variableRef equations)
    (hnew : (q.supports.addAll values label).1 = false) (internal : Bool) :
    Parameter.Backs
      { q with supports := (q.supports.addAll values label).2, hasInternal := internal }
      derivative variableRef equations := by
  obtain ⟨hflag, hderived, q₀, ⟨hmethod, hinfo, hsupports⟩, hbuilt⟩ := h
  obtain ⟨g, hg, hmap⟩ := supports_addAll_of_not_new hnew
  refine ⟨hflag, hderived, q₀, ⟨hmethod, hinfo, ?_⟩, hbuilt⟩
  rw [hmap, List.forall₂_map_right_iff]
  exact hsupports.imp fun s₀ s hs =>
    ⟨(hg s).1.trans hs.value, hs.labelled, List.Subset.trans hs.labels (hg s).2⟩

/-- New values take the stored equations away, and other values only add labels. -/
theorem backed_add (p : Ref) (values : List α) (label : Argument Label) (checked : Bool) :
    Moves KeepsBacked (add p values label checked) := by
  refine moves_of_backed fun w hb => ends_add_of hb fun q l rounded hq _ _ _ _ => ?_
  let f (q₁ : Parameter α) : Parameter α :=
    { q₁ with
      supports := (q.supports.addAll rounded l).2, hasInternal := q₁.hasInternal || l.internal }
  have hq₁ := Model.parameter_modifyParameter hq f
  have ht₁ := Model.alters_modifyParameter w.model p f fun _ => ⟨rfl, rfl⟩
  refine ⟨fun hold => ?_, fun _ w₂ hcleared => ?_⟩
  · -- no value is new, so nothing is dropped: the equations that stay must still be backed
    exact hb.alter_of_backs ht₁ hq hq₁ (fun _ => rfl) fun _ _ _ h => backs_addAll h hold _
  · -- the supports are not those of the equations until these are dropped
    have hu₂ : w₂.model.Unevaluated p := hcleared.unevaluated fun hflag =>
      (hb.unevaluated hq hflag).of_objects ht₁.objects fun _ => rfl
    have hb₂ := hb.alter_of_unevaluated (ht₁.trans hcleared.touches.model.toAlters) hq hu₂
    refine ((backed_resetGenerative hb₂ hcleared.parameter fun _ => hu₂).and
      ((moves_resetGenerative p).ends w₂)).mono ?_ fun _ h => h.1
    rintro _ w₃ ⟨⟨hb₃, -⟩, ht₃⟩
    obtain ⟨q₃, hq₃, -⟩ := ht₃.model.parameter hcleared.parameter
    exact hb₃.markStaleIfUsed hq₃

/-! ### Replacing supports, the method and the way in which supports are derived -/

theorem backed_set (p : Ref) (values : List α) (label : Argument Label) (force : Bool) :
    Moves KeepsBacked (set p values label force) := by
  refine moves_of_backed fun w hb => ends_set_of hb fun q l rounded hq _ _ _ w₂ hcleared => ?_
  let g (q : Parameter α) : Parameter α :=
    { q with hasGenerative := false, hasInternal := l.internal }
  have ht₁ := Model.alters_modifyParameter w.model p (fun q =>
    { q with supports := (SupportMap.empty.addAll rounded l).2 }) fun _ => ⟨rfl, rfl⟩
  have hu₂ : w₂.model.Unevaluated p := hcleared.unevaluated fun hflag =>
    (hb.unevaluated hq hflag).of_objects ht₁.objects fun _ => rfl
  have hb₂ := hb.alter_of_unevaluated (ht₁.trans hcleared.touches.model.toAlters) hq hu₂
  obtain ⟨hb₃, -⟩ := hb₂.modifyParameter (f := g) hcleared.parameter hu₂ fun _ => ⟨rfl, rfl⟩
  exact hb₃.markStaleIfUsed (Model.parameter_modifyParameter hcleared.parameter g)

theorem backed_setMethod (p : Ref) (method : Argument DerivativeMethod) :
    Moves KeepsBacked (setMethod (α := α) p method) := by
  cases method with
  | mistyped value => exact moves_of_backed fun w hb => (ends_throw _).2 hb
  | given method =>
    refine moves_of_backed fun w hb => ?_
    simp only [setMethod, ends_bind, ends_query, ends_modifyModel]
    refine ⟨fun q hq => ?_, fun _ _ => hb⟩
    refine (backed_resetEquations hb hq).mono ?_ fun _ h => h.elim
    rintro _ w₁ ⟨hb₁, hu₁, hq₁⟩
    -- the equations went before the derived supports, so nothing has to be in place
    refine ((backed_resetGenerative hb₁ hq₁ fun _ => hu₁).and
      ((moves_resetGenerative p).ends w₁)).mono ?_ fun _ h => h.1
    rintro _ w₂ ⟨⟨hb₂, hu₂⟩, ht₂⟩
    obtain ⟨q₂, hq₂, -⟩ := ht₂.model.parameter hq₁
    let f (q : Parameter α) : Parameter α := { q with method, info := method.generativeInfo }
    exact (hb₂.modifyParameter (f := f) hq₂ hu₂ fun _ => ⟨rfl, rfl⟩).1.markStaleIfUsed
      (Model.parameter_modifyParameter hq₂ f)

/-- The way in which supports are derived can be replaced where derived supports are in place, since
these are taken away together with the stored equations, or where no equations are stored. -/
theorem backed_setInfo (hb : w.model.Backed) (info : Argument (GenerativeInfo α))
    (hspares : ∀ q, w.model.parameter (.given p) = .ok q → q.hasEquations = true →
      q.hasGenerative = true) :
    Ends (setInfo p info) w (fun _ w' => w'.model.Backed) fun w' => w'.model.Backed := by
  cases info with
  | mistyped value => exact (ends_throw _).2 hb
  | given info =>
    cases hq : w.model.parameter (.given p) with
    | error e => simp [setInfo, resetGenerative, hq, hb]
    | ok q =>
      simp only [setInfo, ends_bind, ends_query, ends_modifyModel]
      -- without derived supports in place nothing is dropped here, so nothing may be stored
      refine (backed_resetGenerative hb hq fun hmissing => hb.unevaluated hq ?_).mono ?_
        fun _ h => h
      · by_contra hset
        rw [hspares q hq (by simpa using hset)] at hmissing
        cases hmissing
      rintro _ w₁ ⟨hb₁, hu₁⟩
      refine ⟨fun q₁ hq₁ => ?_, fun _ _ => hb₁⟩
      let f (q : Parameter α) : Parameter α := { q with info }
      exact (hb₁.modifyParameter (f := f) hq₁ hu₁ fun _ => ⟨rfl, rfl⟩).1.markStaleIfUsed
        (Model.parameter_modifyParameter hq₁ f)

/-! ### Derived supports and evaluations -/

/-- Nothing is left to do where no derived supports are missing. -/
theorem ends_addGenerative_of_derived (hq : w.model.parameter (.given p) = .ok q)
    (hderived : q.hasGenerative = true ∨ q.info = .none) :
    Ends (addGenerative p) w (fun _ w' => w' = w) fun _ => False := by
  simp only [addGenerative, ends_bind, ends_query, hq, reduceCtorEq, false_implies, implies_true,
    and_true, Except.ok.injEq, forall_eq']
  rw [ends_ite]
  refine ⟨fun _ => (ends_pure _).2 rfl, fun hmissing => ?_⟩
  rw [hderived.resolve_left hmissing]
  exact (ends_pure _).2 rfl

/-- Putting derived supports in place keeps equations backed, and afterwards none are missing. -/
theorem backed_addGenerative (hb : w.model.Backed) (p : Ref) :
    Ends (addGenerative p) w
      (fun _ w' => w'.model.Backed ∧ ∀ q, w'.model.parameter (.given p) = .ok q →
        q.hasGenerative = true ∨ q.info = .none)
      fun w' => w'.model.Backed := by
  refine ends_addGenerative_of hb (fun q hq hdone => ⟨hb, fun q' hq' => ?_⟩)
    fun q basis label derived hq _ _ _ => ?_
  · rw [hq] at hq'
    cases hq'
    exact hdone
  refine (((backed_add p derived (.given label) false).ends w).and
    ((moves_add p derived (.given label) false).ends w)).mono ?_ fun _ h => h.1 hb
  rintro _ w₁ ⟨hb₁, ht₁⟩
  obtain ⟨q₁, hq₁, -⟩ := ht₁.model.parameter hq
  let f (q : Parameter α) : Parameter α := { q with hasGenerative := true }
  have hq₂ := Model.parameter_modifyParameter hq₁ f
  -- the flag of derived supports is no part of what equations are built from
  refine ⟨(hb₁ hb).alter_of_backs (Model.alters_modifyParameter w₁.model p f fun _ => ⟨rfl, rfl⟩)
    hq₁ hq₂ (fun _ => rfl) fun _ _ _ h => ⟨h.flag, .inl rfl, ?_⟩, fun q₂ hq₂' => ?_⟩
  · obtain ⟨q₀, ⟨hmethod, hinfo, hsupports⟩, hbuilt⟩ := h.built
    exact ⟨q₀, ⟨hmethod, hinfo, hsupports⟩, hbuilt⟩
  · rw [hq₂] at hq₂'
    cases hq₂'
    exact .inl rfl

end Store

theorem Workspace.Develops.labelled {w w' : Workspace α} (h : w.Develops w')
    (hl : w.model.Labelled) : w'.model.Labelled :=
  h.keeps (P := fun q => ∀ s ∈ q.supports.supports, s.Labelled)
    (fun q hnew => by rw [hnew.supports]; exact nofun) (fun _ _ h hs => hs.labelled h) hl

namespace Evaluation

open Operation Workspace Store

variable {w : Workspace α} {m : Model α} {d : Ref} {q : Parameter α}

/-- Supports back the equations that were just built from them. -/
theorem backed_storeEquations {object : Derivative} {equations : List (Equation α)}
    (hb : m.Backed) (hl : m.Labelled) (hd : m.derivative d = .ok object)
    (hq : m.parameter (.given object.parameter) = .ok q)
    (hderived : q.hasGenerative = true ∨ q.info = .none)
    (hbuild : build d object.ref q = .ok equations) :
    ((m.storeEquations d.index.toNat equations).modifyParameter object.parameter
      fun q => { q with hasEquations := true }).Backed := by
  refine Model.backed_iff.2 ((Model.backed_iff.1 hb).storeEquations hd hq (fun _ _ _ h => ?_)
    ⟨rfl, hderived, q, ⟨rfl, rfl, List.forall₂_same.2 fun s hs =>
      ⟨rfl, hl _ q hq s hs, List.Subset.refl _⟩⟩, hbuild⟩)
  -- only the flag of the parameter has changed under equations that were stored before
  obtain ⟨-, -, q₀, ⟨hmethod, hinfo, hsupports⟩, hbuilt⟩ := h
  exact ⟨rfl, hderived, q₀, ⟨hmethod, hinfo, hsupports⟩, hbuilt⟩

/-- Evaluating keeps equations backed, since it builds them from the supports as they are. -/
theorem backed_evaluate (hl : w.model.Labelled) (hb : w.model.Backed) (d : Ref) :
    Ends (evaluate d) w (fun _ w' => w'.model.Backed) fun w' => w'.model.Backed := by
  refine ends_evaluate_of hb (fun _ _ => hb) fun object _ hobject => ?_
  refine (((backed_addGenerative hb object.parameter).and
    ((moves_addGenerative object.parameter).ends w)).and
    ((develops_addGenerative object.parameter).ends w)).mono ?_ fun _ h => h.1.1
  rintro _ w₁ ⟨⟨⟨hb₁, hderived⟩, ht₁⟩, hdevelops⟩
  exact ⟨hb₁, fun q₁ equations hq₁ hbuild => backed_storeEquations hb₁ (hdevelops.labelled hl)
    (ht₁.model.objects.derivative.2 hobject) hq₁ (hderived q₁ hq₁) hbuild⟩

end Evaluation

/-- Parameters go by steps, and where all supports have labels, stored equations stay backed. -/
structure Workspace.Tracks (w w' : Workspace α) : Prop where
  develops : w.Develops w'
  backed : w.model.Labelled → w.model.Backed → w'.model.Backed

instance : IsPreorder (Workspace α) Workspace.Tracks where
  refl w := ⟨refl_of _ w, fun _ h => h⟩
  trans _ _ _ h h' := ⟨trans_of _ h.develops h'.develops, fun hl hb =>
    h'.backed (h.develops.labelled hl) (h.backed hl hb)⟩

open Operation Workspace Store Evaluation

theorem moves_tracks {β : Type} {op : Operation α β} (hd : Moves Develops op)
    (hb : Moves KeepsBacked op) : Moves Tracks op :=
  ⟨fun w => ((hd.ends w).and (hb.ends w)).mono (fun _ _ h => ⟨h.1, fun _ => h.2⟩)
    fun _ h => ⟨h.1, fun _ => h.2⟩⟩

theorem Evaluation.tracks_evaluate (d : Ref) : Moves Tracks (evaluate (α := α) d) := by
  refine ⟨fun w => ?_⟩
  -- evaluating needs both properties at once, so it is not told about each of them alone
  by_cases h : w.model.Labelled ∧ w.model.Backed
  · exact (((develops_evaluate d).ends w).and (backed_evaluate h.1 h.2 d)).mono
      (fun _ _ h' => ⟨h'.1, fun _ _ => h'.2⟩) fun _ h' => ⟨h'.1, fun _ _ => h'.2⟩
  · exact ((develops_evaluate d).ends w).mono (fun _ _ h' => ⟨h', fun hl hb => absurd ⟨hl, hb⟩ h⟩)
      fun _ h' => ⟨h', fun hl hb => absurd ⟨hl, hb⟩ h⟩

/-- Parameters go by steps and stored equations stay backed, whatever is asked for. -/
theorem governs_tracks : Governs (Tracks (α := α)) where
  push _ q hnew := ⟨.push hnew, fun _ hb =>
    Model.backed_iff.2 ((Model.backed_iff.1 hb).pushParameter q)⟩
  edit _ _ h := ⟨.of_edits h, fun _ hb => Model.backed_iff.2 ((Model.backed_iff.1 hb).edit h)⟩
  set p values label force := moves_tracks (develops_set p values label force)
    (backed_set p values label force)
  add p values label checked := moves_tracks (develops_add p values label checked)
    (backed_add p values label checked)
  delete p label := moves_tracks (develops_delete p label) (moves_of_backed fun _ hb =>
    (backed_delete hb p label).mono (fun _ _ h => h.1) fun _ h => h)
  addGenerative p := moves_tracks (develops_addGenerative p) (moves_of_backed fun _ hb =>
    (backed_addGenerative hb p).mono (fun _ _ h => h.1) fun _ h => h)
  setMethod p method := moves_tracks (develops_setMethod p method) (backed_setMethod p method)
  evaluate := tracks_evaluate

/-! ## Models whose equations are spared -/

/-- A request does not replace the way in which supports are derived while equations are stored,
except where derived supports are in place and go together with the equations. -/
def Request.Spares (m : Model α) : Request α → Prop
  | .setGenerativeInfo p _ => ∀ q, m.parameter (.given p) = .ok q → q.hasEquations = true →
      q.hasGenerative = true
  | _ => True

/-- The models that come about by requests, successful and failed ones, each of which spares stored
equations and finds an environment of its own. -/
inductive Spared : Model α → Prop where
  | start (id : Nat) (name : String) : Spared { id, name }
  | step {m : Model α} (h : Spared m) (e : Environment α) (request : Request α)
    (hspares : request.Spares m) : Spared (request.perform ⟨e, m⟩)

namespace Spared

variable {m : Model α}

theorem requested (h : Spared m) : Requested m := by
  induction h with
  | start id name => exact .start id name
  | step _ e request _ ih => exact ih.step e request

theorem labelled (h : Spared m) : m.Labelled :=
  h.requested.parameter_induction (fun q hnew => by rw [hnew.supports]; exact nofun)
    fun _ _ h hs => hs.labelled h

/-- Stored equations are always backed by the supports. -/
theorem backed (h : Spared m) : m.Backed := by
  induction h with
  | start id name => exact ⟨.empty, nofun⟩
  | @step m h e request hspares hb =>
    -- one request is not governed by the steps of parameters, and is what `Spares` is about
    by_cases hinfo : ∃ p info, request = .setGenerativeInfo p info
    · obtain ⟨p, info, rfl⟩ := hinfo
      exact Request.of_ends (backed_setInfo (w := ⟨e, m⟩) hb info hspares)
    · obtain ⟨w', hw', htracks⟩ := Request.moves_perform
        (governs_tracks.operation request fun p info h => absurd ⟨p, info, h⟩ hinfo) ⟨e, m⟩
      exact hw' ▸ htracks.backed h.labelled hb

/-- Requests that spare the stored equations of any model lead from a model to others. -/
theorem replay (h : Spared m) (requests : List (Request α))
    (hspares : ∀ request ∈ requests, ∀ m, request.Spares m) :
    Spared (Request.replay m requests) := by
  induction requests generalizing m with
  | nil => exact h
  | cons request rest ih =>
    exact ih (h.step {} request (hspares request List.mem_cons_self m)) fun request' hmem =>
      hspares request' (List.mem_cons_of_mem request hmem)

end Spared

/-! ## Evaluating again -/

/-- Evaluating a derivative whose stored equations were discarded builds them from the parameter as
it is, where no derived supports are missing. -/
theorem ends_evaluate_discarded {m : Model α} {d : Ref} {object : Derivative} {q : Parameter α}
    (hd : m.derivative d = .ok object) (hq : m.parameter (.given object.parameter) = .ok q)
    (hderived : q.hasGenerative = true ∨ q.info = .none) (e : Environment α) :
    Ends (evaluate d) ⟨e, m.dropEquations d.index⟩
      (fun equations w' => build d object.ref q = .ok equations ∧
        w'.model.equations? d.index = some equations)
      fun _ => ∃ err, build d object.ref q = .error err := by
  obtain ⟨hid, hkind, hfound⟩ := Model.derivative_eq_ok.1 hd
  -- the objects are those of the model before the equations were discarded
  have howned : (m.dropEquations d.index).ownedOf [.derivative] d = .ok d :=
    Model.ownedOf_eq_ok.2 ⟨rfl, hid, by simp [hkind]⟩
  have hnone : (m.dropEquations d.index).equations? d.index = none := by
    rw [Model.equations?_dropEquations, if_pos rfl]
  have hd' : (m.dropEquations d.index).derivative d = .ok object := hd
  have hq' : (m.dropEquations d.index).parameter object.parameter = .ok q := hq
  simp only [evaluate, ends_bind, ends_query, howned, ends_model, hnone, hd', reduceCtorEq,
    false_implies, implies_true, and_true, Except.ok.injEq, forall_eq']
  refine (ends_addGenerative_of_derived hq' hderived).mono ?_ fun _ h => h.elim
  rintro _ w rfl
  simp only [hq', ends_check, ends_modifyModel, ends_pure, reduceCtorEq, false_implies,
    implies_true, and_true, Except.ok.injEq, forall_eq']
  refine ⟨fun equations hb => ⟨hb, ?_⟩, fun err hb => ⟨err, hb⟩⟩
  have hlook := Model.equations?_storeEquations_derivative hd' equations d.index
  rwa [hnone, Option.none_or, if_pos rfl] at hlook

namespace Model

variable {m : Model α} {d : Ref} {object : Derivative} {q : Parameter α}
  {equations : List (Equation α)}

/-- The parameter of a live derivative with stored equations backs these. -/
theorem Backed.backs (h : m.Backed) (hd : m.derivative d = .ok object)
    (hq : m.parameter (.given object.parameter) = .ok q)
    (hstored : m.equations? d.index = some equations) : q.Backs d object.ref equations := by
  obtain ⟨hid, hkind, hfound⟩ := derivative_eq_ok.1 hd
  have href : (⟨m.id, .derivative, d.index⟩ : Ref) = d := by rw [← hid, ← hkind]
  exact href ▸ (backed_iff.1 h).holds hfound hq hstored

end Model

section Again

variable {m : Model α} {d : Ref} {object : Derivative} {q : Parameter α}
  {equations : List (Equation α)}

/-- A parameter whose derivative gets the stored equations again is steady. -/
theorem steady_of_evaluate_eq (h : Spared m) (hd : m.derivative d = .ok object)
    (hq : m.parameter (.given object.parameter) = .ok q)
    (hstored : m.equations? d.index = some equations)
    (hdef : ∀ x ∈ q.supports.values, Scalar.Defined x) {e : Environment α} {w' : Workspace α}
    (hrun : evaluate d ⟨e, m.dropEquations d.index⟩ = .ok equations w') : q.Steady equations := by
  have hbacks := h.backed.backs hd hq hstored
  exact steady_of_build hdef ((ends_evaluate_discarded hd hq hbacks.derived e).of_ok hrun).1

/-- Evaluating a derivative again, after its stored equations were discarded, gives the same
equations where the parameter is steady. -/
theorem evaluate_eq_stored [LawfulScalar α] (h : Spared m) (hd : m.derivative d = .ok object)
    (hq : m.parameter (.given object.parameter) = .ok q)
    (hstored : m.equations? d.index = some equations) (hsteady : q.Steady equations)
    (e : Environment α) : ∃ w',
      evaluate d ⟨e, m.dropEquations d.index⟩ = .ok equations w' ∧
        w'.model.equations? d.index = some equations := by
  -- the supports at the time of the first evaluation, known up to labels
  obtain ⟨-, hderived, q₀, hrelabels, hbuilt⟩ := h.backed.backs hd hq hstored
  have htidy : q.Tidy := h.requested.parameter_induction (fun _ hnew => .of_new hnew)
    (fun _ _ hq hs => hq.step hs) _ q hq
  have hbuild := build_of_relabels hrelabels htidy.ordered hsteady hbuilt
  have hends : Ends (evaluate d) ⟨e, m.dropEquations d.index⟩
      (fun again w' => again = equations ∧ w'.model.equations? d.index = some again)
      fun _ => False := by
    refine (ends_evaluate_discarded hd hq hderived e).mono ?_ ?_
    · rintro again w' ⟨hb, hstored'⟩
      exact ⟨Except.ok.inj (hb.symm.trans hbuild), hstored'⟩
    · rintro w' ⟨err, hb⟩
      cases hbuild.symm.trans hb
  obtain ⟨again, w', hrun, rfl, hstored'⟩ := hends.exists_ok
  exact ⟨w', hrun, hstored'⟩

/-- Collocation where a point variable is stored at a derived support before the evaluation and the
supports gain labels after it. -/
theorem evaluate_eq_stored_labelled :
    let p : Ref := ⟨0, .parameter, 1⟩
    let x : Ref := ⟨0, .infiniteVariable, 1⟩
    let d : Ref := ⟨0, .derivative, 1⟩
    let m : Model ℚ := Request.replay { id := 0 }
      [.addParameter (.scalar (.interval 0 1)) "t" (some [0, 1]) 0 (some 6)
        (.orthogonalCollocation 3),
      .addInfiniteVariable "x" [.given p] none none .none false,
      .addDerivative (.given x) p "dx" (.ok "t"),
      .addGenerativeSupports p,
      .addPointVariable (.given x) [1 / 2] "half",
      .evaluate d,
      .addSupports p [0, 1 / 2] (.given .uniformGrid) true]
    Spared m ∧ ∃ object q equations, m.derivative d = .ok object ∧
      m.parameter (.given object.parameter) = .ok q ∧
      m.equations? d.index = some equations ∧ q.Steady equations ∧ ∃ w',
        evaluate d ⟨{}, m.dropEquations d.index⟩ = .ok equations w' ∧
          w'.model.equations? d.index = some equations := by
  intro p x d m
  have hspared : Spared m := .replay (.start 0 "model") _ (by simp [Request.Spares])
  obtain ⟨object, hd, hp⟩ := Except.exists_of_decide (x := m.derivative d)
    (fun object => object.parameter = p) (by decide +kernel)
  obtain ⟨q, hq, hends⟩ := Except.exists_of_decide (x := m.parameter (.given p))
    (fun q => ∀ s ∈ q.supports.supports, ∃ e ∈ (m.equations? d.index).getD [], s.value ∈ e.ends)
    (by decide +kernel)
  obtain ⟨equations, hstored⟩ : ∃ equations, m.equations? d.index = some equations :=
    Option.isSome_iff_exists.1 (by decide +kernel)
  rw [hstored] at hends
  rw [← hp] at hq
  have hsteady : q.Steady equations := .inr ⟨fun x _ => beq_self_eq_true x, fun _ _ s hs _ =>
    .inr (hends s hs)⟩
  exact ⟨hspared, object, q, equations, hd, hq, hstored, hsteady,
    evaluate_eq_stored hspared hd hq hstored hsteady {}⟩

/-- A derived support that a point variable is stored at becomes a boundary, so evaluating again
gives other equations: those of two elements in place of one. -/
theorem not_evaluate_eq_stored :
    ¬ ∀ (m : Model ℚ) (d : Ref) (equations again : List (Equation ℚ)) (e : Environment ℚ)
      (w' : Workspace ℚ), Reachable m → m.equations? d.index = some equations →
      evaluate d ⟨e, m.dropEquations d.index⟩ = .ok again w' → again = equations := by
  intro hall
  let p : Ref := ⟨0, .parameter, 1⟩
  let x : Ref := ⟨0, .infiniteVariable, 1⟩
  let d : Ref := ⟨0, .derivative, 1⟩
  let m : Model ℚ := Request.replay { id := 0 }
    [.addParameter (.scalar (.interval 0 1)) "t" (some [0, 1]) 0 (some 6)
      (.orthogonalCollocation 3),
    .addInfiniteVariable "x" [.given p] none none .none false,
    .addDerivative (.given x) p "dx" (.ok "t"),
    .evaluate d,
    .addPointVariable (.given x) [1 / 2] "half"]
  have hr : Reachable m := .replay (.start 0 "model") _
  have hstored : (m.equations? d.index).map (·.map (·.rest.length)) = some [3, 3] := by
    decide +kernel
  obtain ⟨equations, hstored, hbefore⟩ := Option.map_eq_some_iff.1 hstored
  have hagain : Ends (evaluate d) ⟨{}, m.dropEquations d.index⟩
      (fun again _ => again.map (·.rest.length) = [2, 2]) fun _ => False := by decide +kernel
  obtain ⟨again, w', hrun, hafter⟩ := hagain.exists_ok
  rw [hall m d equations again {} w' hr hstored hrun, hbefore] at hafter
  cases hafter

end Again

end Discretization
