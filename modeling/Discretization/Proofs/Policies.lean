import Discretization.Proofs.Integrity

/-!
# Histories under a Policy

Some properties of parameters last only as long as certain things are never put into them, such as
values from outside the domain. What requests put in is checked in part by themselves, what is
generated the environment must answer for, and the rest is a condition on requests: on those that
store unchecked values or values under internal labels, on measure data, and on those that replace
the way in which supports are derived.

## Main definitions

* `Policy.Admits`: values may be stored under a label wherever they pass the checks;
* `Workspace.Obeys`: generators and measures give only what the policy allows;
* `Request.Obeys`: what a request asks for is allowed;
* `RequestedBy`: the models that come about by requests which meet a condition.

## Main results

* `Request.ends_respects`: parameters go by events that the policy allows;
* `RequestedBy.event_induction`: what allowed events keep, parameters always have.
-/

namespace Discretization

variable {α : Type} [Scalar α] {π : Policy α}

open Operation Workspace

/-! ## What obeys a policy -/

/-- The policy allows the values under the label on every parameter whose checks they pass. -/
def Policy.Admits (π : Policy α) (values : List α) (label : Label) : Prop :=
  ∀ (q : Parameter α) rounded, roundList q.digits values = .ok rounded →
    q.checkBounds rounded = .ok () → π.values q.domain rounded label

/-- The policy does not restrict what is stored under public labels if it passes the checks. -/
def Policy.Open (π : Policy α) : Prop :=
  ∀ values label, label.internal = false → π.Admits values label

/-- What the generators make of the domain of a parameter is allowed on it if it passes the
checks. -/
def Environment.Generates (e : Environment α) (π : Policy α) : Prop :=
  ∀ e', e.SameRules e' → ∀ (q : Parameter α) method count source,
    Ends (Generation.generate q.domain method count (some q.digits) source) e'
      (fun found _ => ∀ rounded, roundList q.digits found.1.entries = .ok rounded →
        q.checkBounds rounded = .ok () → π.values q.domain rounded found.2)
      fun _ => True

/-- Generators give only what the policy allows, and so do measures when their points are stored
again. -/
structure Workspace.Obeys (w : Workspace α) (π : Policy α) : Prop where
  generates : w.environment.Generates π
  measures : ∀ i μ, w.model.measures.get? i = some μ →
    ∀ row ∈ μ.data.supports, π.Admits row μ.data.label

/-- From a workspace that obeys the policy, parameters go on by allowed events, and it still
does. -/
def Workspace.Respects (π : Policy α) (w w' : Workspace α) : Prop :=
  w.Obeys π → Follows π (Parameter.Event π) w w' ∧ w'.Obeys π

namespace Workspace

variable {β : Type} {op : Operation α β} {w w' : Workspace α}

instance : IsPreorder (Workspace α) (Respects π) where
  refl _ h := ⟨refl_of _ _, h⟩
  trans _ _ _ h h' hw :=
    have h₁ := h hw
    have h₂ := h' h₁.2
    ⟨trans_of _ h₁.1 h₂.1, h₂.2⟩

theorem Obeys.of_keepsObjects (h : w.Obeys π) (hk : w.KeepsObjects w') : w'.Obeys π where
  generates e' he := h.generates e' (trans_of _ hk.environment he)
  measures := by
    rw [hk.objects.measures]
    exact h.measures

theorem Obeys.of_keeps (h : w.Obeys π) (hk : w.Keeps w') : w'.Obeys π :=
  h.of_keepsObjects ⟨hk.objects, hk.environment⟩

/-- Nothing has to be shown of a workspace that does not obey the policy. -/
theorem ends_respects_of_obeys (h : w.Obeys π → Ends op w (fun _ w' => Respects π w w')
      fun w' => Respects π w w') :
    Ends op w (fun _ w' => Respects π w w') fun w' => Respects π w w' := by
  by_cases hw : w.Obeys π
  · exact h hw
  · exact .of_forall (fun _ _ h => absurd h hw) fun _ h => absurd h hw

/-- An operation on supports, which leaves the measures as they are. -/
theorem ends_respects_of_follows (h : Ends op w
      (fun _ w' => Follows π (Parameter.Event π) w w') fun w' => Follows π (Parameter.Event π) w w')
    (hk : Moves KeepsObjects op) :
    Ends op w (fun _ w' => Respects π w w') fun w' => Respects π w w' := by
  refine (h.and (hk.ends w)).mono (fun _ _ h hw => ?_) fun _ h hw => ?_
  · exact ⟨h.1, hw.of_keepsObjects h.2⟩
  · exact ⟨h.1, hw.of_keepsObjects h.2⟩

theorem respects_of_follows (h : Moves (Follows π (Parameter.Event π)) op)
    (hk : Moves KeepsObjects op) : Moves (Respects π) op :=
  ⟨fun w => ends_respects_of_follows (h.ends w) hk⟩

theorem respects_onEnvironment {action : EnvironmentAction α β}
    (h : Moves Environment.SameRules action) : Moves (Respects π) (onEnvironment action) :=
  respects_of_follows ⟨fun _ => (ends_onEnvironment action).2
    (.of_forall (fun _ _ => .of_parameters rfl rfl) fun _ => .of_parameters rfl rfl)⟩
    (keepsObjects_onEnvironment h)

end Workspace

/-! ## Operations on supports -/

namespace Store

variable {p : Ref} {values : List α}

theorem respects_add {label : Argument Label} {checked : Bool}
    (h : ∀ (q : Parameter α) l rounded, q.Admitted values label checked l rounded →
      π.values q.domain rounded l) :
    Moves (Respects π) (add p values label checked) :=
  respects_of_follows ((follows_add p h).mono fun _ _ h => h.event) (keepsObjects_add ..)

/-- Values that are checked before they are added. -/
theorem respects_add_checked {label : Label} (h : π.Admits values label) :
    Moves (Respects π) (add p values (.given label) true) := by
  refine respects_add fun q l rounded hadmitted => ?_
  cases hadmitted.given
  exact h q rounded hadmitted.rounds (hadmitted.inside rfl)

/-- What is generated is checked before it is added. -/
theorem respects_generateAndAdd (method : Option Label) (count : Option Int) (extra : Bool)
    (source : Option Nat) : Moves (Respects π) (generateAndAdd p method count extra source) := by
  refine ⟨fun w => ends_respects_of_obeys fun hw =>
    ends_respects_of_follows ?_ (keepsObjects_generateAndAdd ..)⟩
  unfold generateAndAdd
  rw [ends_bind, ends_query]
  refine ⟨fun q hq => ?_, fun _ _ => refl_of _ w⟩
  rw [ends_bind, ends_onEnvironment]
  refine (hw.generates _ (refl_of _ w.environment) q _ count source).mono ?_ fun _ _ =>
    .of_parameters rfl rfl
  rintro ⟨found, l⟩ e hfound
  -- generating changes the environment only
  have hsame : Follows π (Parameter.Event π) w { w with environment := e } :=
    .of_parameters rfl rfl
  refine (ends_add_follows (π := π) (w := { w with environment := e }) hq
    fun l' rounded hadmitted => ?_).mono ?_ ?_
  · cases hadmitted.given
    exact hfound rounded hadmitted.rounds (hadmitted.inside rfl)
  · exact fun _ _ h => trans_of _ hsame h.event
  · exact fun _ h => trans_of _ hsame h.event

theorem respects_fillIn (count : Option Int) (extend : Bool) (source : Option Nat) :
    Moves (Respects π) (fillIn (α := α) p count extend source) :=
  moves_fillIn respects_generateAndAdd respects_onEnvironment count extend source

theorem respects_addGenerative (p : Ref) : Moves (Respects π) (addGenerative (α := α) p) :=
  respects_of_follows ((follows_addGenerative p).mono fun _ _ h => h.event)
    (KeepsObjects.of_touches (moves_addGenerative p))

theorem respects_delete (p : Ref) (label : Label) :
    Moves (Respects π) (delete p label : Operation α Unit) :=
  respects_of_follows (follows_delete p label) (KeepsObjects.of_touches (moves_delete p label))

theorem respects_set {label : Argument Label} (h : ∀ l, label = .given l → π.Admits values l)
    (force : Bool) : Moves (Respects π) (set p values label force) :=
  respects_of_follows
    (follows_set p force fun q l rounded hl hr hbounds => h l hl q rounded hr hbounds)
    (KeepsObjects.of_touches (moves_set p values label force))

end Store

theorem Evaluation.respects_evaluate (d : Ref) : Moves (Respects π) (evaluate (α := α) d) :=
  respects_of_follows ((follows_evaluate d).mono fun _ _ h => h.event) (keepsObjects_evaluate d)

theorem Transcription.respects_restoreSupports (hopen : π.Open) :
    Moves (Respects π) (restoreSupports (α := α)) := by
  refine ⟨fun w => ends_respects_of_obeys fun hw => ?_⟩
  refine ends_restoreSupports_of (fun p x => Store.respects_add_checked (hopen [x] _ rfl))
    fun ref μ hμ pair hpair => Store.respects_add_checked ?_
  exact hw.measures _ μ (Model.measure_eq_ok.1 hμ).2.2 pair.2 (List.of_mem_zip hpair).2

theorem Transcription.respects_prepareSupports (hopen : π.Open) :
    Moves (Respects π) (prepareSupports (α := α)) :=
  moves_prepareSupports (fun _ => Store.respects_fillIn none false none)
    (respects_restoreSupports hopen) Store.respects_addGenerative
    (Evaluation.moves_evaluateAll Evaluation.respects_evaluate)

/-! ## Additions and deletions -/

/-- Edits leave supports and measures alone. -/
theorem Workspace.Respects.of_edited {w w' : Workspace α} (h : Edited w w') : Respects π w w' := by
  obtain ⟨henvironment, hedits, hmeasures⟩ := h
  refine fun hw => ⟨(Follows.of_edits hedits).event, ?_, ?_⟩
  · rw [henvironment]
    exact hw.generates
  · rw [hmeasures]
    exact hw.measures

namespace Modeling

variable {w w' : Workspace α}

theorem respects_addParameter (hopen : π.Open) {domain : Domain α} {method : DerivativeMethod}
    (hinfo : ∀ digits, π.infos domain digits method.generativeInfo) (name : String)
    (supports : Option (List α)) (count : Int) (digits : Option Int) :
    Moves (Respects π) (addParameter domain name supports count digits method) := by
  refine moves_addParameter (fun q hnew hdomain hmethod w hw => ⟨.push hnew ?_, hw.generates, ?_⟩)
    (fun p values => Store.respects_set (fun l hl => hopen values l (by cases hl; rfl)) false)
    (fun p => Store.respects_fillIn _ true none) respects_onEnvironment
  · rw [hnew.info, hdomain, hmethod]
    exact hinfo q.digits
  · exact hw.measures

/-- A loop that adds values which were checked before. -/
theorem ends_forIn_add_follows {γ : Type} {pairs : List (Ref × γ)} (values : γ → List α)
    (label : Label)
    (h : ∀ pair ∈ pairs, ∃ q, w.model.parameter (.given pair.1) = .ok q ∧
      roundList q.digits (values pair.2) = .ok (values pair.2) ∧
      π.values q.domain (values pair.2) label) :
    Ends (forIn pairs PUnit.unit fun pair _ => do
        let _ ← Store.add pair.1 (values pair.2) (.given label) false
        return .yield PUnit.unit) w
      (fun _ w' => Follows π (Parameter.Event π) w w' ∧ w.Keeps w')
      fun w' => Follows π (Parameter.Event π) w w' ∧ w.Keeps w' := by
  refine Ends.forIn (fun _ w' => Follows π (Parameter.Event π) w w' ∧ w.Keeps w')
    ⟨refl_of _ w, refl_of _ w⟩ ?_
  rintro gone pair rest w₁ hpairs ⟨hf₁, hk₁⟩
  obtain ⟨q, hq, hr, hallowed⟩ := h pair (hpairs ▸ by simp)
  obtain ⟨q₁, hq₁, hdigits, hdomain, -⟩ := hk₁.parameter _ q hq
  rw [ends_bind]
  refine ((Store.ends_add_follows hq₁ (π := π) fun l rounded hadmitted => ?_).and
    ((Store.moves_add ..).ends w₁)).mono ?_ ?_
  · -- the values were rounded, so rounding them again gives the same ones
    cases hadmitted.given
    have hr₁ := hadmitted.rounds
    rw [hdigits, hr] at hr₁
    cases hr₁
    rw [hdomain]
    exact hallowed
  · rintro _ w₂ ⟨hf₂, ht₂⟩
    exact (ends_pure _).2 ⟨rfl, trans_of _ hf₁ hf₂.event, trans_of _ hk₁ ht₂.keeps⟩
  · rintro w₂ ⟨hf₂, ht₂⟩
    exact ⟨trans_of _ hf₁ hf₂.event, trans_of _ hk₁ ht₂.keeps⟩

theorem respects_addPointVariable [LawfulScalar α] (hopen : π.Open) (variableRef : Handle)
    (values : List α) (name : String) :
    Moves (Respects π) (addPointVariable variableRef values name) := by
  refine ⟨fun w => ends_addPointVariable_of (refl_of _ w)
    fun ref variableName parameters rounded _ _ hlength hrounded => ?_⟩
  refine (ends_forIn_add_follows (π := π) (fun x => [x]) .userDefined fun pair hpair => ?_).mono
    ?_ ?_
  · obtain ⟨q, hq, hr, hbounds⟩ :=
      (List.forall₂_iff_zip.1 (checked_flatten hlength hrounded)).2 hpair
    exact ⟨q, hq, hr, hopen _ _ rfl q _ hr hbounds⟩
  · rintro _ w' ⟨hf, hk⟩ name v
    have hpush : Follows π (Parameter.Event π) w'
      { w' with model := (w'.model.pushPointVariable v).2 } := .of_parameters rfl rfl
    intro hw
    have hw' := hw.of_keeps hk
    exact ⟨trans_of _ hf hpush, hw'.generates, hw'.measures⟩
  · rintro w' ⟨hf, hk⟩ hw
    exact ⟨hf, hw.of_keeps hk⟩

theorem respects_addMeasure [LawfulScalar α] {data : MeasureData α}
    (hdata : ∀ row ∈ data.supports, π.Admits row data.label) (function : Handle) (name : String) :
    Moves (Respects π) (addMeasure function data name) := by
  refine ⟨fun w => ends_addMeasure_of (refl_of _ w)
    fun ref functionParameters rows _ _ _ hrows => ?_⟩
  refine (ends_forIn_add_follows (π := π) (fun row => row) data.label fun pair hpair => ?_).mono
    ?_ ?_
  · obtain ⟨row, hrow, hchecked⟩ := exists_of_mem_zip hrows pair hpair
    obtain ⟨q, hq, -, hr, hbounds⟩ := checkSupports_eq_ok.1 hchecked
    exact ⟨q, hq, roundList_idem hr, hdata row hrow q _ hr hbounds⟩
  · rintro _ w' ⟨hf, hk⟩
    refine ⟨fun _ _ hw => ⟨hf, hw.of_keeps hk⟩, ?_⟩
    intro name μ
    have hpush : Follows π (Parameter.Event π) w'
      { w' with model := (w'.model.pushMeasure μ).2 } := .of_parameters rfl rfl
    intro hw
    have hw' := hw.of_keeps hk
    refine ⟨trans_of _ hf hpush, hw'.generates, fun i μ hμ => ?_⟩
    -- the new measure has the data that the policy allows
    rcases Table.get?_push hμ with hμ | ⟨-, rfl⟩
    · exact hw'.measures i μ hμ
    · exact hdata
  · rintro w' ⟨hf, hk⟩ hw
    exact ⟨hf, hw.of_keeps hk⟩

theorem respects_deleteMeasure (handle : Handle) :
    Moves (Respects π) (deleteMeasure handle : Operation α Unit) := by
  refine moves_deleteMeasure (fun i => ⟨fun w => (ends_modifyModel _).2 fun hw => ?_⟩)
    Store.respects_delete ⟨fun w => (ends_modifyModel _).2 fun hw => ?_⟩
  · exact ⟨.of_parameters rfl rfl, hw.generates, fun j μ hμ =>
      hw.measures j μ (Table.get?_of_get?_erase hμ).2⟩
  · exact ⟨.of_parameters rfl rfl, hw.generates, hw.measures⟩

end Modeling

/-! ## Requests -/

/-- The policy allows what a request puts into the parameters of a model. -/
def Request.Obeys (π : Policy α) (m : Model α) : Request α → Prop
  | addParameter domain _ _ _ _ method => ∀ digits, π.infos domain digits method.generativeInfo
  | addMeasure _ data _ _ => ∀ row ∈ data.supports, π.Admits row data.label
  | setSupports _ values label _ => ∀ l, label = .given l → π.Admits values l
  | addSupports _ values label checked => ∀ (q : Parameter α) l rounded, label = .given l →
      roundList q.digits values = .ok rounded → (checked = true → q.checkBounds rounded = .ok ()) →
        π.values q.domain rounded l
  | setGenerativeInfo p info => ∀ info' q, info = .given info' → m.parameter (.given p) = .ok q →
      π.infos q.domain q.digits info'
  | setDerivativeMethod p method => ∀ method' q, method = .given method' →
      m.parameter (.given p) = .ok q → π.infos q.domain q.digits method'.generativeInfo
  | _ => True

/-- Under an open policy that a request obeys, the parameters go by allowed events. -/
theorem Request.ends_respects [LawfulScalar α] (hopen : π.Open) {w : Workspace α}
    {request : Request α} (hobeys : request.Obeys π w.model) :
    Ends request.operation w (fun _ w' => Respects π w w') fun w' => Respects π w w' := by
  cases request with
  | addParameter domain name supports count digits method =>
    exact Moves.ends ((Modeling.respects_addParameter hopen hobeys ..).bind fun _ => .pure _) w
  | addPointVariable variableRef values name =>
    exact Moves.ends ((Modeling.respects_addPointVariable hopen ..).bind fun _ => .pure _) w
  | addMeasure function data shaped name =>
    exact Moves.ends ((Modeling.respects_addMeasure hobeys ..).bind fun _ => .pure _) w
  | deleteMeasure handle => exact (Modeling.respects_deleteMeasure handle).ends w
  | setSupports p values label force => exact (Store.respects_set hobeys force).ends w
  | addSupports p values label checked =>
    exact Moves.ends ((Store.respects_add fun q l rounded h =>
      hobeys q l rounded h.given h.rounds h.inside).bind fun _ => .pure _) w
  | deleteSupports p label => exact (Store.respects_delete p label).ends w
  | generateSupports p method count extra source =>
    exact Moves.ends ((Store.respects_generateAndAdd ..).bind fun _ => .pure _) w
  | fillInSupports p count extend source => exact (Store.respects_fillIn ..).ends w
  | addGenerativeSupports p => exact (Store.respects_addGenerative p).ends w
  | setGenerativeInfo p info =>
    exact ends_respects_of_follows (Store.ends_setInfo_follows hobeys)
      (Store.keepsObjects_setInfo p info)
  | setDerivativeMethod p method =>
    exact ends_respects_of_follows (Store.ends_setMethod_follows hobeys)
      (Store.keepsObjects_setMethod p method)
  | evaluate derivative =>
    exact Moves.ends ((Evaluation.respects_evaluate _).bind fun _ => .pure _) w
  | evaluateAll => exact (Evaluation.moves_evaluateAll Evaluation.respects_evaluate).ends w
  | restoreSupports => exact (Transcription.respects_restoreSupports hopen).ends w
  | prepareSupports => exact (Transcription.respects_prepareSupports hopen).ends w
  | build verbose =>
    refine Moves.ends ((Transcription.moves_build (Transcription.respects_prepareSupports hopen)
      (fun t => ⟨fun w => (ends_modifyModel _).2 fun hw => ?_⟩) respects_onEnvironment verbose).bind
        fun _ => .pure _) w
    exact ⟨.of_parameters rfl rfl, hw.generates, hw.measures⟩
  | _ =>
    exact (Request.ends_of_edits rfl w).mono (fun _ _ h => .of_edited h)
      fun _ h => h ▸ refl_of (Respects π) w

/-! ## Histories -/

/-- The models that come about by requests that meet a condition on the model and the environment
that they find. They may succeed or fail. -/
inductive RequestedBy (allowed : Model α → Environment α → Request α → Prop) : Model α → Prop where
  | start (id : Nat) (name : String) : RequestedBy allowed { id, name }
  | step {m : Model α} (h : RequestedBy allowed m) {e : Environment α} {request : Request α}
    (ha : allowed m e request) : RequestedBy allowed (request.perform ⟨e, m⟩)

namespace RequestedBy

variable {allowed : Model α → Environment α → Request α → Prop} {m : Model α}

theorem requested (h : RequestedBy allowed m) : Requested m := by
  induction h with
  | start id name => exact .start id name
  | step _ _ ih => exact ih.step _ _

theorem mono {allowed' : Model α → Environment α → Request α → Prop} (h : RequestedBy allowed m)
    (himp : ∀ m e request, allowed m e request → allowed' m e request) :
    RequestedBy allowed' m := by
  induction h with
  | start id name => exact .start id name
  | step _ ha ih => exact ih.step (himp _ _ _ ha)

/-- Requests that meet the condition wherever they are made. -/
theorem replay (h : RequestedBy allowed m) {requests : List (Request α)}
    (ha : ∀ request ∈ requests, ∀ m, allowed m {} request) :
    RequestedBy allowed (Request.replay m requests) := by
  unfold Request.replay
  induction requests generalizing m with
  | nil => exact h
  | cons request rest ih =>
    exact ih (h.step (ha request List.mem_cons_self m)) fun r hr =>
      ha r (List.mem_cons_of_mem request hr)

/-- Each request meets the condition on the model that it finds. -/
def Allows (allowed : Model α → Environment α → Request α → Prop) :
    Model α → List (Request α) → Prop
  | _, [] => True
  | m, request :: rest => allowed m {} request ∧ Allows allowed (request.perform ⟨{}, m⟩) rest

/-- Whether it does can be tried out. -/
instance decidableAllows [∀ m request, Decidable (allowed m {} request)] :
    ∀ m requests, Decidable (Allows allowed m requests)
  | _, [] => inferInstanceAs (Decidable True)
  | m, request :: rest =>
    have := decidableAllows (request.perform ⟨{}, m⟩) rest
    inferInstanceAs (Decidable (_ ∧ _))

theorem replay_of_allows (h : RequestedBy allowed m) {requests : List (Request α)}
    (ha : Allows allowed m requests) : RequestedBy allowed (Request.replay m requests) := by
  unfold Request.replay
  induction requests generalizing m with
  | nil => exact h
  | cons request rest ih => exact ih (h.step ha.1) ha.2

/-- What new parameters have and events keep, as far as an open policy allows them, the parameters
of all models have that come about by requests which obey the policy. -/
theorem event_induction [LawfulScalar α] (hopen : π.Open)
    (hobeys : ∀ m e request, allowed m e request → e.Generates π ∧ request.Obeys π m)
    {P : Parameter α → Prop}
    (hnew : ∀ q, q.New → π.infos q.domain q.digits q.info → P q)
    (hevent : ∀ q q', P q → q.Event π q' → P q') (h : RequestedBy allowed m) :
    ∀ p q, m.parameter (.given p) = .ok q → P q := by
  -- the points of measures are stored again by later requests, so they have to be remembered
  let Kept (m : Model α) : Prop :=
    (∀ i μ, m.measures.get? i = some μ → ∀ row ∈ μ.data.supports, π.Admits row μ.data.label) ∧
      ∀ p q, m.parameter (.given p) = .ok q → P q
  suffices hkept : Kept m from hkept.2
  induction h with
  | start id name =>
    refine ⟨fun _ _ hμ => (by cases hμ), fun p q hq => ?_⟩
    obtain ⟨-, -, hget⟩ := Model.parameter_eq_ok.1 hq
    cases hget
  | @step m _ e request ha ih =>
    obtain ⟨hgenerates, hrequest⟩ := hobeys m e request ha
    have kept : ∀ w' : Workspace α, Respects π ⟨e, m⟩ w' → Kept w'.model := fun w' hw' =>
      have hw' := hw' ⟨hgenerates, ih.1⟩
      ⟨hw'.2.measures, hw'.1.keeps hnew hevent ih.2⟩
    exact Request.of_ends (P := Kept)
      ((request.ends_respects hopen hrequest).mono (fun _ => kept) kept)

end RequestedBy

end Discretization
