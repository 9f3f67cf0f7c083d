import Discretization.Proofs.Operations
import Mathlib.Logic.Relation

/-!
# Steps of a Parameter

Whatever is asked for, the supports of a parameter change in few ways: values are added, labels are
stripped, all supports are taken away, or derived supports are put in place. The way in which they
are derived changes only where none are in place. So a property of parameters that a new parameter
has and that every such step keeps holds of the parameters of all models that come about by
requests.

## Main definitions

* `Parameter.Step`: one change of a parameter;
* `Workspace.Develops`: every parameter comes by steps from one before or from a new one.

## Main results

* `Store.develops_add`, `Store.develops_delete` and so on: the operations on supports go by steps;
* `Requested.parameter_induction`: what new parameters have and steps keep, parameters always have.
-/

namespace Discretization

variable {α : Type} [Scalar α]

namespace Parameter

/-- One change of a parameter. -/
inductive Step (q : Parameter α) : Parameter α → Prop where
  /-- The flags of internal supports and of stored equations are set. -/
  | note (internal equations : Bool) :
      q.Step { q with hasInternal := internal, hasEquations := equations }
  /-- Rounded values are added under a label that can be stored. -/
  | add {values rounded : List α} {label : Label}
      (rounds : roundList q.digits values = .ok rounded) (storable : label.isSelector = false) :
      q.Step { q with supports := (q.supports.addAll rounded label).2 }
  /-- Labels are stripped; derived supports no longer count as in place. -/
  | strip (selectors : List Label) :
      q.Step { q with supports := (q.supports.strip selectors).1, hasGenerative := false }
  /-- All supports are taken away. -/
  | clear : q.Step { q with supports := .empty, hasGenerative := false }
  /-- Derived supports are put in place. -/
  | derive {basis derived rounded : List α} {label : Label} {owner : String}
      (missing : q.hasGenerative = false) (info : q.info = .uniform basis label)
      (derives : q.info.makeSupports (q.supports.baseValues label) owner = .ok derived)
      (rounds : roundList q.digits derived = .ok rounded) (storable : label.isSelector = false) :
      q.Step { q with supports := (q.supports.addAll rounded label).2, hasGenerative := true }
  /-- The method or the way in which supports are derived is replaced. -/
  | redefine (method : DerivativeMethod) (info : GenerativeInfo α)
      (missing : q.hasGenerative = false) : q.Step { q with method, info }

/-- Changes of a parameter one after the other. -/
abbrev Steps : Parameter α → Parameter α → Prop :=
  Relation.ReflTransGen Step

end Parameter

namespace Workspace

/-- Every parameter comes by steps from the one before, or from a new one. -/
structure Develops (w w' : Workspace α) : Prop where
  parameter : ∀ p q', w'.model.parameter (.given p) = .ok q' →
    ∃ q, (w.model.parameter (.given p) = .ok q ∨ q.New) ∧ q.Steps q'

variable {w w' w'' : Workspace α} {p : Ref} {q q' : Parameter α}

instance : IsPreorder (Workspace α) Develops where
  refl _ := ⟨fun _ q hq => ⟨q, .inl hq, .refl⟩⟩
  trans _ _ _ h h' := ⟨fun p q'' hq'' => by
    obtain ⟨q', hq' | hnew, hsteps'⟩ := h'.parameter p q'' hq''
    · obtain ⟨q, hq, hsteps⟩ := h.parameter p q' hq'
      exact ⟨q, hq, hsteps.trans hsteps'⟩
    · exact ⟨q', .inr hnew, hsteps'⟩⟩

/-- Nothing happened to the parameters. -/
theorem Develops.of_parameters (hid : w'.model.id = w.model.id)
    (h : w'.model.parameters = w.model.parameters) : Develops w w' := by
  refine ⟨fun p q hq => ⟨q, .inl ?_, .refl⟩⟩
  rw [Model.parameter_eq_ok] at hq ⊢
  rwa [hid, h] at hq

/-- One more change of a parameter. -/
theorem Develops.modifyParameter {f : Parameter α → Parameter α} (h : Develops w w')
    (hq : w'.model.parameter (.given p) = .ok q) (hf : q.Steps (f q)) :
    Develops w { w' with model := w'.model.modifyParameter p f } := by
  refine trans_of Develops h ⟨fun p' q' hq' => ?_⟩
  obtain ⟨hid, hkind, hget⟩ := Model.parameter_eq_ok.1 hq'
  by_cases hp : p'.index = p.index
  · obtain ⟨-, -, hfound⟩ := Model.parameter_eq_ok.1 hq
    rw [Model.modifyParameter, hp, Table.get?_modify_self hfound] at hget
    cases hget
    exact ⟨q, .inl (Model.parameter_eq_ok.2 ⟨hid, hkind, hp ▸ hfound⟩), hf⟩
  · rw [Model.modifyParameter, Table.get?_modify_of_ne _ hp] at hget
    exact ⟨q', .inl (Model.parameter_eq_ok.2 ⟨hid, hkind, hget⟩), .refl⟩

theorem Develops.markStaleIfUsed (h : Develops w w') (p : Ref) :
    Develops w { w' with model := w'.model.markStaleIfUsed p } :=
  trans_of Develops h
    ⟨fun _ q hq => ⟨q, .inl (by rwa [Model.parameter_markStaleIfUsed] at hq), .refl⟩⟩

end Workspace

namespace Store

open Operation Workspace

variable {w w' : Workspace α} {p : Ref} {q : Parameter α}

/-! ## Operations on supports -/

/-- A change around a parameter that takes it through steps. -/
theorem develops_of_touches (ht : w.Touches p w') {q' : Parameter α}
    (hq : w.model.parameter (.given p) = .ok q) (hq' : w'.model.parameter (.given p) = .ok q')
    (hs : q.Steps q') : Develops w w' := by
  refine ⟨fun p₁ q₁ hq₁ => ?_⟩
  by_cases hp : p₁.index = p.index
  · obtain ⟨hid₁, hkind₁, hget₁⟩ := Model.parameter_eq_ok.1 hq₁
    obtain ⟨-, -, hget⟩ := Model.parameter_eq_ok.1 hq
    obtain ⟨-, -, hget'⟩ := Model.parameter_eq_ok.1 hq'
    rw [hp, hget'] at hget₁
    cases hget₁
    exact ⟨q, .inl (Model.parameter_eq_ok.2
      ⟨hid₁.trans ht.model.objects.id, hkind₁, hp ▸ hget⟩), hs⟩
  · exact ⟨q₁, .inl ((ht.model.parameter_of_ne hp).1 hq₁), .refl⟩

theorem Cleared.develops (h : Cleared p q w w') (hq : w.model.parameter (.given p) = .ok q) :
    Develops w w' :=
  develops_of_touches h.touches hq h.parameter (.single (.note _ _))

theorem develops_resetEquations (p : Ref) :
    Moves Develops (resetEquations p : Operation α Unit) := by
  refine ⟨fun w => ?_⟩
  cases hq : w.model.parameter (.given p) with
  | error e => simp [resetEquations, hq, refl_of Develops w]
  | ok q => exact (ends_resetEquations hq).mono (fun _ _ h => h.1.develops hq) fun _ h => h.elim

/-- Deleting a label strips it, or takes all supports away. -/
theorem develops_delete (p : Ref) (label : Label) :
    Moves Develops (delete p label : Operation α Unit) := by
  refine ⟨fun w => ?_⟩
  by_cases hl : label = .all
  · subst hl
    refine ends_delete_all (refl_of Develops w) fun q w₁ hq hw₁ => ?_
    refine ((hw₁.develops hq).modifyParameter hw₁.parameter ?_).markStaleIfUsed p
    exact .tail (.single .clear) (.note _ _)
  · refine ends_delete hl (fun _ _ => refl_of Develops w) fun q w₁ hq hw₁ =>
      ⟨fun _ _ => hw₁.develops hq, fun derived _ supports failed hstrip => ?_⟩
    have hsupports : supports = (q.supports.strip (selectors q label derived)).1 := by rw [hstrip]
    subst hsupports
    -- what is stripped, whether or not it ends early
    have hstripped := (hw₁.develops hq).modifyParameter hw₁.parameter
      (f := fun q₁ => { q₁ with
        supports := (q.supports.strip (selectors q label derived)).1, hasGenerative := false })
      (.single (.strip _))
    refine ⟨fun _ => hstripped, fun _ => ?_⟩
    exact (hstripped.modifyParameter (Model.parameter_modifyParameter hw₁.parameter _)
      (.single (.note _ _))).markStaleIfUsed p

theorem develops_resetGenerative (p : Ref) :
    Moves Develops (resetGenerative p : Operation α Unit) := by
  refine (moves_query _).bind fun parameter => ?_
  split
  · exact (moves_check _).bind fun derived => develops_delete p derived
  · exact .pure _

/-- Adding values adds them under the label, and new values take derived supports away. -/
theorem develops_add (p : Ref) (values : List α) (label : Argument Label) (checked : Bool) :
    Moves Develops (add p values label checked) := by
  refine ⟨fun w => ends_add_of (refl_of Develops w) fun q l rounded hq _ hl hr _ => ?_⟩
  let f (q₁ : Parameter α) : Parameter α :=
    { q₁ with
      supports := (q.supports.addAll rounded l).2, hasInternal := q₁.hasInternal || l.internal }
  -- the values come in first, and what is taken away afterwards goes by steps of its own
  have added : Develops w { w with model := w.model.modifyParameter p f } :=
    (refl_of Develops w).modifyParameter hq (.tail (.single (.add hr hl)) (.note _ _))
  refine ⟨fun _ => added, fun _ w₂ hcleared => ?_⟩
  have cleared := trans_of Develops added
    (hcleared.develops (Model.parameter_modifyParameter hq f))
  exact ((develops_resetGenerative p).ends w₂).mono
    (fun _ _ h => (trans_of Develops cleared h).markStaleIfUsed p)
    fun _ h => trans_of Develops cleared h

/-- Where no derived supports are in place, none are taken away. -/
theorem ends_resetGenerative_of_missing (hq : w.model.parameter (.given p) = .ok q)
    (hmissing : q.hasGenerative = false) {ok : Unit → Workspace α → Prop}
    {fail : Workspace α → Prop} (h : ok () w) : Ends (resetGenerative p) w ok fail := by
  unfold resetGenerative
  rw [ends_bind, ends_query]
  refine ⟨fun q₁ hq₁ => ?_, fun e he => ?_⟩
  · rw [hq] at hq₁
    cases hq₁
    rw [hmissing, if_neg Bool.false_ne_true, ends_pure]
    exact h
  · rw [hq] at he
    cases he

/-- Values that are added where no derived supports are in place are only added. If they are neither
added nor out of bounds, the label cannot be stored or a value cannot be rounded. -/
theorem ends_add_of_missing (hq : w.model.parameter (.given p) = .ok q)
    (hmissing : q.hasGenerative = false) (values : List α) (label : Argument Label)
    (checked : Bool) :
    Ends (add p values label checked) w
      (fun _ w' => ∃ l rounded equations, label = .given l ∧ l.isSelector = false ∧
        roundList q.digits values = .ok rounded ∧ w'.model.parameter (.given p) = .ok
          { q with supports := (q.supports.addAll rounded l).2,
                   hasInternal := q.hasInternal || l.internal, hasEquations := equations })
      fun w' => w' = w ∧ ∀ l rounded, label = .given l → l.isSelector = false →
        roundList q.digits values = .ok rounded → checked = true := by
  unfold add
  rw [ends_bind, ends_query_of hq, ends_bind, ends_check]
  refine ⟨fun l hl => ?_, fun e he => ⟨rfl, fun l rounded hgiven hstorable _ => ?_⟩⟩
  swap
  · rw [storable_eq_ok.2 ⟨hgiven, hstorable⟩] at he
    cases he
  rw [ends_bind, ends_check]
  refine ⟨fun rounded hr => ?_, fun e he => ⟨rfl, fun _ rounded _ _ hr => ?_⟩⟩
  swap
  · rw [Parameter.round, hr] at he
    cases he
  obtain ⟨hgiven, hstorable⟩ := storable_eq_ok.1 hl
  let f (q₁ : Parameter α) : Parameter α :=
    { q₁ with
      supports := (q.supports.addAll rounded l).2, hasInternal := q₁.hasInternal || l.internal }
  have hq₁ := Model.parameter_modifyParameter hq f
  dsimp only
  rw [ends_ite]
  refine ⟨fun hchecked => ?_, fun _ => ?_⟩
  -- whether the bounds are checked or not, the rest is the same
  on_goal 1 =>
    rw [ends_bind, ends_check]
    refine ⟨fun _ _ => ?_, fun _ _ => ⟨rfl, fun _ _ _ _ _ => hchecked⟩⟩
  all_goals
    rw [ends_bind, ends_modifyModel, ends_ite]
    refine ⟨fun _ => ?_, fun _ => (ends_pure _).2 ⟨l, rounded, _, hgiven, hstorable, hr, hq₁⟩⟩
    rw [ends_bind]
    refine (ends_resetEquations hq₁).mono ?_ fun _ h => h.elim
    rintro _ w₂ ⟨hcleared, -⟩
    rw [ends_bind]
    refine ends_resetGenerative_of_missing hcleared.parameter hmissing ?_
    rw [ends_bind, ends_modifyModel, ends_pure]
    exact ⟨l, rounded, false, hgiven, hstorable, hr, by
      rw [Model.parameter_markStaleIfUsed]
      exact hcleared.parameter⟩

/-- Replacing supports takes all away and adds the given ones. -/
theorem develops_set (p : Ref) (values : List α) (label : Argument Label) (force : Bool) :
    Moves Develops (set p values label force) := by
  refine ⟨fun w => ends_set_of (refl_of Develops w) fun q l rounded hq hl _ hr w₂ hcleared => ?_⟩
  have hq₃ := Model.parameter_modifyParameter hcleared.parameter fun q =>
    { q with hasGenerative := false, hasInternal := l.internal }
  have ht₁ := (refl_of (Touches p) w).modifyParameter (f := fun q =>
    { q with supports := (SupportMap.empty.addAll rounded l).2 }) fun _ => ⟨rfl, rfl, rfl⟩
  have ht₃ := (trans_of (Touches p) ht₁ hcleared.touches).modifyParameter (f := fun q =>
    { q with hasGenerative := false, hasInternal := l.internal }) fun _ => ⟨rfl, rfl, rfl⟩
  refine (develops_of_touches ht₃ hq hq₃ ?_).markStaleIfUsed p
  -- the equations are dropped in between, which no step looks at
  exact .tail (.tail (.single .clear) (.add hr hl)) (.note _ _)

/-- Derived supports are put in place in one step. -/
theorem develops_addGenerative (p : Ref) : Moves Develops (addGenerative (α := α) p) := by
  refine ⟨fun w => ends_addGenerative_of (refl_of Develops w) (fun _ _ _ => refl_of Develops w)
    fun q basis label derived hq hmissing hinfo hderived => ?_⟩
  -- adding would be one step and the flag another, but in between derived supports are not in
  -- place; so the whole is read off as one step
  refine (((ends_add_of_missing hq hmissing derived (.given label) false).and
    ((moves_add p derived (.given label) false).ends w)).and
    ((develops_add p derived (.given label) false).ends w)).mono ?_ fun _ h => h.2
  rintro _ w₁ ⟨⟨⟨l, rounded, equations, hl, hstorable, hr, hq₁⟩, ht₁⟩, -⟩
  cases hl
  have hstep := Parameter.Step.derive hmissing hinfo hderived hr hstorable
  exact develops_of_touches (ht₁.modifyParameter fun _ => ⟨rfl, rfl, rfl⟩) hq
    (Model.parameter_modifyParameter hq₁ _) (.tail (.single hstep) (.note _ equations))

/-- Where derived supports were taken away, none are in place. -/
theorem ends_resetGenerative_missing (p : Ref) :
    Ends (resetGenerative p) w
      (fun _ w' => ∀ q, w'.model.parameter (.given p) = .ok q → q.hasGenerative = false)
      fun _ => True := by
  unfold resetGenerative
  rw [ends_bind, ends_query]
  refine ⟨fun q hq => ?_, fun _ _ => trivial⟩
  rw [ends_ite]
  refine ⟨fun _ => ?_, fun hmissing => (ends_pure _).2 fun q' hq' => ?_⟩
  · rw [ends_bind, ends_check]
    refine ⟨fun derived _ => ?_, fun _ _ => trivial⟩
    -- the label of derived supports is no selector in sound models, but that is not needed here
    by_cases hall : derived = .all
    · subst hall
      refine ends_delete_all trivial fun q₁ w₁ _ hw₁ q' hq' => ?_
      have hq₂ := Model.parameter_modifyParameter hw₁.parameter fun q =>
        { q with supports := .empty, hasGenerative := false, hasInternal := false }
      rw [Model.parameter_markStaleIfUsed, hq₂] at hq'
      cases hq'
      rfl
    · refine ends_delete hall (fun _ _ => trivial) fun q₁ w₁ _ hw₁ =>
        ⟨fun _ _ => trivial, fun _ _ supports _ _ => ⟨fun _ => trivial, fun _ q' hq' => ?_⟩⟩
      have hq₂ := Model.parameter_modifyParameter (Model.parameter_modifyParameter hw₁.parameter
        fun q => { q with supports, hasGenerative := false }) fun q =>
          { q with hasInternal := q.hasInternal && supports.hasInternal }
      rw [Model.parameter_markStaleIfUsed, hq₂] at hq'
      cases hq'
      rfl
  · rw [hq] at hq'
    cases hq'
    simpa using hmissing

theorem develops_setInfo (p : Ref) (info : Argument (GenerativeInfo α)) :
    Moves Develops (setInfo p info) := by
  cases info with
  | mistyped value => exact .throw _
  | given info =>
    refine ⟨fun w => ?_⟩
    simp only [setInfo, ends_bind, ends_query, ends_modifyModel]
    refine (((develops_resetGenerative p).ends w).and (ends_resetGenerative_missing p)).mono ?_
      fun _ h => h.1
    rintro _ w₁ ⟨h₁, hmissing⟩
    refine ⟨fun q hq => ?_, fun _ _ => h₁⟩
    let f (q : Parameter α) : Parameter α := { q with info }
    exact (h₁.modifyParameter (f := f) hq
      (.single (.redefine q.method info (hmissing q hq)))).markStaleIfUsed p

theorem develops_setMethod (p : Ref) (method : Argument DerivativeMethod) :
    Moves Develops (setMethod (α := α) p method) := by
  cases method with
  | mistyped value => exact .throw _
  | given method =>
    refine ⟨fun w => ?_⟩
    simp only [setMethod, ends_bind, ends_query, ends_modifyModel]
    refine ⟨fun q hq => ?_, fun _ _ => refl_of Develops w⟩
    refine (((develops_resetEquations p).ends w).and ((moves_resetEquations p).ends w)).mono ?_
      fun _ h => h.1
    rintro _ w₁ ⟨h₁, ht₁⟩
    refine ((((develops_resetGenerative p).ends w₁).and ((moves_resetGenerative p).ends w₁)).and
      (ends_resetGenerative_missing p)).mono ?_ fun _ h => trans_of Develops h₁ h.1.1
    rintro _ w₂ ⟨⟨h₂, ht₂⟩, hmissing⟩
    obtain ⟨q₂, hq₂, -⟩ := (trans_of (Touches p) ht₁ ht₂).model.parameter hq
    let f (q : Parameter α) : Parameter α := { q with method, info := method.generativeInfo }
    exact ((trans_of Develops h₁ h₂).modifyParameter (f := f) hq₂
      (.single (.redefine method _ (hmissing q₂ hq₂)))).markStaleIfUsed p

end Store

open Operation Workspace Store

/-- An evaluation puts derived supports in place and stores equations. -/
theorem Evaluation.develops_evaluate (d : Ref) : Moves Develops (evaluate (α := α) d) := by
  refine (moves_query _).bind fun derivative => moves_model.bind fun m => ?_
  split
  · exact .pure _
  · refine (moves_query _).bind fun object =>
      (develops_addGenerative object.parameter).bind fun _ => ⟨fun w => ?_⟩
    have hrefl := refl_of Develops w
    rw [ends_bind, ends_query]
    refine ⟨fun q hq => ?_, fun _ _ => hrefl⟩
    rw [ends_bind, ends_check]
    refine ⟨fun equations _ => ?_, fun _ _ => hrefl⟩
    rw [ends_bind, ends_modifyModel, ends_pure]
    have hstored : Develops w
        { w with model := w.model.storeEquations derivative.index.toNat equations } :=
      .of_parameters rfl rfl
    exact hstored.modifyParameter (p := object.parameter) hq (.single (.note _ _))

/-- A new parameter comes after those before. -/
theorem Workspace.Develops.push {w : Workspace α} {q₀ : Parameter α} (hnew : q₀.New) :
    Develops w { w with model := (w.model.pushParameter q₀).2 } := by
  refine ⟨fun p q hq => ?_⟩
  obtain ⟨hid, hkind, hget⟩ := Model.parameter_eq_ok.1 hq
  rcases Table.get?_push hget with hget | ⟨-, rfl⟩
  · exact ⟨q, .inl (Model.parameter_eq_ok.2 ⟨hid, hkind, hget⟩), .refl⟩
  · exact ⟨q, .inr hnew, .refl⟩

/-- Edits only set flags of parameters. -/
theorem Workspace.Develops.of_edits {w w' : Workspace α} (h : w.model.Edits w'.model) :
    Develops w w' := by
  obtain ⟨e, m'⟩ := w'
  change w.model.Edits m' at h
  cases h with
  | addDerivative ha =>
    obtain ⟨v, variableName, parameters, q, -, -, -, -, rfl⟩ := Model.exists_of_addDerivative ha
    exact .of_parameters rfl rfl
  | deleteDerivative hd =>
    obtain ⟨ref, d, _, q, -, -, rfl, hq, rfl⟩ := Model.exists_of_deleteDerivative hd
    split
    · exact .of_parameters rfl rfl
    · -- without its last evaluated derivative the parameter is noted as not evaluated
      let kept : Model α :=
        { w.model.dropEquations ref.index with derivatives := w.model.derivatives.erase ref.index }
      let f (q : Parameter α) : Parameter α := { q with hasEquations := false }
      have hkept : Develops w ⟨e, kept⟩ := .of_parameters rfl rfl
      have hforgot := hkept.modifyParameter (p := d.parameter) (f := f) hq
        (.single (.note q.hasInternal false))
      refine trans_of Develops hforgot ?_
      exact .of_parameters rfl rfl
  | other hid hp => exact .of_parameters hid hp

/-- Parameters go by steps, whatever is asked for. -/
theorem governs_develops : Governs (Develops (α := α)) where
  push _ _ hnew := .push hnew
  edit _ _ h := .of_edits h
  set := develops_set
  add := develops_add
  delete := develops_delete
  addGenerative := develops_addGenerative
  setMethod := develops_setMethod
  evaluate := Evaluation.develops_evaluate

/-- What steps keep, sequences of steps keep. -/
theorem Parameter.Steps.keeps {P : Parameter α → Prop} (hstep : ∀ q q', P q → q.Step q' → P q')
    {q q' : Parameter α} (hs : q.Steps q') (hP : P q) : P q' := by
  induction hs with
  | refl => exact hP
  | tail _ hlast ih => exact hstep _ _ ih hlast

/-- What new parameters have and steps keep, all parameters have after they had it before. -/
theorem Workspace.Develops.keeps {P : Parameter α → Prop} (hnew : ∀ q, q.New → P q)
    (hstep : ∀ q q', P q → q.Step q' → P q') {w w' : Workspace α} (h : Develops w w')
    (hP : ∀ p q, w.model.parameter (.given p) = .ok q → P q) :
    ∀ p q, w'.model.parameter (.given p) = .ok q → P q := by
  intro p q hq
  obtain ⟨q₀, hq₀ | hq₀, hs⟩ := h.parameter p q hq
  · exact hs.keeps hstep (hP p q₀ hq₀)
  · exact hs.keeps hstep (hnew q₀ hq₀)

/-- What new parameters have and steps keep, the parameters of all models have. -/
theorem Requested.parameter_induction {P : Parameter α → Prop} (hnew : ∀ q, q.New → P q)
    (hstep : ∀ q q', P q → q.Step q' → P q') {m : Model α} (h : Requested m) :
    ∀ p q, m.parameter (.given p) = .ok q → P q := by
  induction h with
  | start id name =>
    intro p q hq
    obtain ⟨-, -, hget⟩ := Model.parameter_eq_ok.1 hq
    cases hget
  | @step m _ e request ih =>
    obtain ⟨w', hw', hdevelops⟩ := Request.moves_perform
      (governs_develops.operation request fun p info _ => develops_setInfo p info) ⟨e, m⟩
    rw [← hw']
    exact hdevelops.keeps hnew hstep ih

end Discretization
