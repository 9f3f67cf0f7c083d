import Discretization.Proofs.Constructions
import Discretization.Proofs.Entries
import Discretization.Proofs.Grids

/-!
# Histories of a Model

A model comes about by operations in any order, each of which may fail and then leaves behind what
it had changed by then. Settings, random sources and other models may change in between, so every
operation runs in an environment of its own. The invariant holds of every model that comes about in
this way.

## Main definitions

* `Request`: an operation with its arguments;
* `Requested`: the models that sequences of operations lead to;
* `Reachable`: those where missing supports could be generated for every build;
* `UpToDate`: a transcription that agrees with a model.

## Main results

* `Transcription.inv_build`: building keeps the invariant;
* `Request.inv_perform`, `Requested.inv`, `Reachable.inv`: every request keeps the invariant, so
  that it holds of every model;
* `upToDate_of_ready`: the transcription of a ready model is up to date.
-/

namespace Discretization

variable {α : Type} [Scalar α]

/-! ## Building -/

namespace Transcription

open Operation Workspace Store

variable [LawfulScalar α] {w : Workspace α} {full : Prop}

omit [LawfulScalar α] in
/-- A model that is marked ready after a transcription has the grid of the model before. -/
theorem inv_markReady {m : Model α} {verbose : Bool} {t : Transcription α} (h : m.Inv full)
    (hp : m.GridDefined → m.Prepared full) (ht : m.transcribe verbose = .ok t) :
    (m.markReady (some t)).Inv full where
  sound := h.sound.markReady (some t)
  ready hdef _ := by
    obtain ⟨hverbose, -⟩ := Model.grows_of_transcribe ht
    refine ⟨m, t, rfl, hverbose.symm ▸ ht, h.sound, hp hdef, ?_⟩
    have hgrid := Model.SameGrid.refl m
    exact ⟨⟨rfl, rfl, rfl, rfl, rfl, rfl, rfl, rfl, rfl, rfl⟩, hgrid.digits, hgrid.used,
      hgrid.equations⟩

theorem keepsInv_addGenerative (p : Ref) : Moves (KeepsInv full) (addGenerative (α := α) p) := by
  refine moves_of_inv fun w h => ?_
  cases hq : w.model.parameter (.given p) with
  | error e => simp [addGenerative, hq, h]
  | ok q => exact (ends_addGenerative h hq).mono (fun _ _ h' => h'.1) fun _ h' => h'.1

theorem keepsInv_restoreSupports : Moves (KeepsInv full) (restoreSupports (α := α)) :=
  moves_of_inv fun _ h => (ends_restoreSupports h).mono (fun _ _ h' => h'.1) fun _ h' => h'

theorem keepsInv_prepareSupports : Moves (KeepsInv full) (prepareSupports (α := α)) :=
  moves_model.bind fun _ =>
    (Moves.forIn (fun p _ => (keepsInv_fillIn p none false none).bind fun _ => .pure _) _).bind
      fun _ => keepsInv_restoreSupports.bind fun _ =>
        (Moves.forIn (fun p _ => (keepsInv_addGenerative p).bind fun _ => .pure _) _).bind
          fun _ => Evaluation.keepsInv_evaluateAll

/-- Building keeps the invariant, also where it fails. -/
theorem inv_build (h : w.model.Inv full) (he : full → w.environment.Supplies)
    (verbose : Option Bool) :
    Ends (build verbose) w (fun _ w' => w'.model.Inv full) fun w' => w'.model.Inv full := by
  unfold build
  rw [ends_bind, ends_get]
  dsimp only
  rw [ends_bind]
  refine (ends_prepareSupports h he).mono ?_ fun _ h' => h'
  rintro _ w₁ ⟨h₁, -, hprepared⟩
  rw [ends_bind, ends_model, ends_bind, ends_check]
  refine ⟨fun t ht => ?_, fun _ _ => h₁⟩
  rw [ends_bind, ends_modifyModel, ends_bind]
  refine (inv_of_moves (keepsInv_onEnvironment _) (inv_markReady h₁ hprepared ht)).mono
    (fun _ w' h' => (ends_pure _).2 h') fun _ h' => h'

/-- A build transcribes a model whose supports it has made ready, and marks that model ready. -/
theorem ends_build (h : w.model.Inv full) (he : full → w.environment.Supplies)
    (verbose : Option Bool) :
    Ends (build verbose) w (fun t w' => ∃ m : Model α, m.Inv full ∧
      m.transcribe t.verbose = .ok t ∧ w'.model = m.markReady (some t) ∧
      (m.GridDefined → m.Prepared full)) fun _ => True := by
  unfold build
  rw [ends_bind, ends_get]
  dsimp only
  rw [ends_bind]
  refine (ends_prepareSupports h he).mono ?_ fun _ _ => trivial
  rintro _ w₁ ⟨h₁, -, hprepared⟩
  rw [ends_bind, ends_model, ends_bind, ends_check]
  refine ⟨fun t ht => ?_, fun _ _ => trivial⟩
  obtain ⟨hverbose, -⟩ := Model.grows_of_transcribe ht
  rw [ends_bind, ends_modifyModel, ends_bind, ends_onEnvironment]
  exact .of_forall (fun _ _ => (ends_pure _).2
    ⟨w₁.model, h₁, hverbose.symm ▸ ht, rfl, hprepared⟩) fun _ => trivial

end Transcription

/-! ## Requests -/

/-- An operation on a model, with its arguments. The rows of measure data belong to its
parameters. -/
inductive Request (α : Type) where
  | addParameter (domain : Domain α) (name : String) (supports : Option (List α)) (count : Int)
      (digits : Option Int) (method : DerivativeMethod)
  | addInfiniteVariable (name : String) (parameters : List Handle) (lower upper : Option α)
      (start : Start α) (integer : Bool)
  | addFiniteVariable (v : FiniteVariable α)
  | addPointVariable (variableRef : Handle) (values : List α) (name : String)
  | addDerivative (variableRef : Handle) (p : Ref) (name : String)
      (parameterName : Except (Error α) String)
  | deleteDerivative (h : Handle)
  | addMeasure (function : Handle) (data : MeasureData α) (shaped : data.WellShaped)
      (name : String)
  | deleteMeasure (h : Handle)
  | addConstraint (terms : List (α × Handle)) (sense : String) (rhs : α) (name : String)
      (restrictions : List (Handle × (α × α)))
  | deleteConstraint (h : Handle)
  | markStale
  | setSupports (p : Ref) (values : List α) (label : Argument Label) (force : Bool)
  | addSupports (p : Ref) (values : List α) (label : Argument Label) (checked : Bool)
  | deleteSupports (p : Ref) (label : Label)
  | generateSupports (p : Ref) (method : Option Label) (count : Option Int) (extra : Bool)
      (source : Option Nat)
  | fillInSupports (p : Ref) (count : Option Int) (extend : Bool) (source : Option Nat)
  | addGenerativeSupports (p : Ref)
  | setGenerativeInfo (p : Ref) (info : Argument (GenerativeInfo α))
  | setDerivativeMethod (p : Ref) (method : Argument DerivativeMethod)
  | evaluate (derivative : Ref)
  | evaluateAll
  | restoreSupports
  | prepareSupports
  | build (verbose : Option Bool)

namespace Request

open Operation

/-- The operation that is asked for. -/
def operation : Request α → Operation α Unit
  | addParameter domain name supports count digits method => do
    let _ ← Modeling.addParameter domain name supports count digits method
  | addInfiniteVariable name parameters lower upper start integer => do
    let _ ← change (·.addInfiniteVariable name parameters lower upper start integer)
  | addFiniteVariable v => do
    let _ ← change fun m => pure (m.addFiniteVariable v)
  | addPointVariable variableRef values name => do
    let _ ← Modeling.addPointVariable variableRef values name
  | addDerivative variableRef p name parameterName => do
    let _ ← change (·.addDerivative variableRef p name parameterName)
  | deleteDerivative h => change (·.deleteDerivative h)
  | addMeasure function data _ name => do
    let _ ← Modeling.addMeasure function data name
  | deleteMeasure h => Modeling.deleteMeasure h
  | addConstraint terms sense rhs name restrictions => do
    let _ ← change (·.addConstraint terms sense rhs name restrictions)
  | deleteConstraint h => change (·.deleteConstraint h)
  | markStale => modifyModel (·.markStale)
  | setSupports p values label force => Store.set p values label force
  | addSupports p values label checked => do
    let _ ← Store.add p values label checked
  | deleteSupports p label => Store.delete p label
  | generateSupports p method count extra source => do
    let _ ← Store.generateAndAdd p method count extra source
  | fillInSupports p count extend source => Store.fillIn p count extend source
  | addGenerativeSupports p => Store.addGenerative p
  | setGenerativeInfo p info => Store.setInfo p info
  | setDerivativeMethod p method => Store.setMethod p method
  | evaluate derivative => do
    let _ ← Evaluation.evaluate derivative
  | evaluateAll => Evaluation.evaluateAll
  | restoreSupports => Transcription.restoreSupports
  | prepareSupports => Transcription.prepareSupports
  | build verbose => do
    let _ ← Transcription.build verbose

/-- The model that a request leaves behind, whether it succeeds or fails. -/
def perform (request : Request α) (w : Workspace α) : Model α :=
  match request.operation w with
  | .ok _ w' => w'.model
  | .error _ w' => w'.model

theorem of_ends {request : Request α} {w : Workspace α} {P : Model α → Prop}
    (h : Ends request.operation w (fun _ w' => P w'.model) fun w' => P w'.model) :
    P (request.perform w) := by
  unfold perform
  split
  · rename_i hrun
    exact h.of_ok hrun
  · rename_i hrun
    exact h.of_error hrun

/-- The model that requests lead to one after the other, each in a new environment. -/
def replay (m : Model α) (requests : List (Request α)) : Model α :=
  requests.foldl (fun m request => request.perform ⟨{}, m⟩) m

/-- Whether a request asks for a transcription. -/
def builds : Request α → Bool
  | build _ => true
  | _ => false

variable [LawfulScalar α]

/-- Every request keeps the invariant, whether it succeeds or fails. -/
theorem inv_perform {m : Model α} {full : Prop} (h : m.Inv full) (request : Request α)
    {e : Environment α} (he : full → request.builds = true → e.Supplies) :
    (request.perform ⟨e, m⟩).Inv full := by
  refine of_ends (P := fun m => m.Inv full) ?_
  cases request with
  | addParameter domain name supports count digits method =>
    exact Store.inv_of_moves ((Modeling.keepsInv_addParameter ..).bind fun _ => .pure _) h
  | addInfiniteVariable name parameters lower upper start integer =>
    exact Store.inv_of_moves ((Modeling.keepsInv_change fun _ _ _ hm hf =>
      Model.inv_addInfiniteVariable hm.sound hf).bind fun _ => .pure _) h
  | addFiniteVariable v =>
    refine Store.inv_of_moves ((Modeling.keepsInv_change fun m _ _ hm hf => ?_).bind
      fun _ => .pure _) h
    rw [Except.pure_eq_ok] at hf
    cases hf
    exact .of_stale (Model.sound_addFiniteVariable hm.sound v) rfl
  | addPointVariable variableRef values name =>
    exact Store.inv_of_moves ((Modeling.keepsInv_addPointVariable ..).bind fun _ => .pure _) h
  | addDerivative variableRef p name parameterName =>
    exact Store.inv_of_moves ((Modeling.keepsInv_change fun _ _ _ hm hf =>
      Model.inv_addDerivative hm.sound hf).bind fun _ => .pure _) h
  | deleteDerivative handle =>
    exact Store.inv_of_moves (Modeling.keepsInv_change fun _ _ _ hm hf =>
      Model.inv_deleteDerivative hm.sound hf) h
  | addMeasure function data shaped name =>
    exact Store.inv_of_moves ((Modeling.keepsInv_addMeasure _ shaped _).bind fun _ => .pure _) h
  | deleteMeasure handle => exact Store.inv_of_moves (Modeling.keepsInv_deleteMeasure _) h
  | addConstraint terms sense rhs name restrictions =>
    exact Store.inv_of_moves ((Modeling.keepsInv_change fun _ _ _ hm hf =>
      Model.inv_addConstraint hm.sound hf).bind fun _ => .pure _) h
  | deleteConstraint handle =>
    exact Store.inv_of_moves (Modeling.keepsInv_change fun _ _ _ hm hf =>
      Model.inv_deleteConstraint hm.sound hf) h
  | markStale => exact (ends_modifyModel _).2 (.of_stale h.sound.markStale rfl)
  | setSupports p values label force => exact Store.inv_set h values label force
  | addSupports p values label checked =>
    exact Store.inv_of_moves ((Store.keepsInv_add ..).bind fun _ => .pure _) h
  | deleteSupports p label => exact Store.inv_delete h label
  | generateSupports p method count extra source =>
    exact Store.inv_of_moves ((Store.keepsInv_generateAndAdd ..).bind fun _ => .pure _) h
  | fillInSupports p count extend source =>
    exact Store.inv_of_moves (Store.keepsInv_fillIn ..) h
  | addGenerativeSupports p =>
    exact Store.inv_of_moves (Transcription.keepsInv_addGenerative p) h
  | setGenerativeInfo p info => exact Store.inv_of_moves (Store.keepsInv_setInfo ..) h
  | setDerivativeMethod p method => exact Store.inv_of_moves (Store.keepsInv_setMethod ..) h
  | evaluate derivative =>
    exact Store.inv_of_moves ((Evaluation.keepsInv_evaluate _).bind fun _ => .pure _) h
  | evaluateAll => exact Store.inv_of_moves Evaluation.keepsInv_evaluateAll h
  | restoreSupports => exact Store.inv_of_moves Transcription.keepsInv_restoreSupports h
  | prepareSupports => exact Store.inv_of_moves Transcription.keepsInv_prepareSupports h
  | build verbose =>
    change Ends (Transcription.build verbose >>= fun _ => pure ()) _ _ _
    rw [ends_bind]
    exact (Transcription.inv_build h (fun hfull => he hfull rfl) verbose).mono
      (fun _ _ h' => (ends_pure _).2 h') fun _ h' => h'

end Request

/-! ## Reachable models -/

/-- The models that come about by requests, successful and failed ones, each in an environment of
its own. -/
inductive Requested : Model α → Prop where
  | start (id : Nat) (name : String) : Requested { id, name }
  | step {m : Model α} (h : Requested m) (e : Environment α) (request : Request α) :
    Requested (request.perform ⟨e, m⟩)

theorem Requested.replay {m : Model α} (h : Requested m) (requests : List (Request α)) :
    Requested (Request.replay m requests) := by
  unfold Request.replay
  induction requests generalizing m with
  | nil => exact h
  | cons request rest ih => exact ih (h.step {} request)

/-- What a successful request leaves behind. -/
theorem Requested.of_run {m : Model α} (h : Requested m) {e : Environment α} {request : Request α}
    {w' : Workspace α} (hrun : request.operation ⟨e, m⟩ = .ok () w') : Requested w'.model := by
  have hperform : request.perform ⟨e, m⟩ = w'.model := by rw [Request.perform, hrun]
  exact hperform ▸ h.step e request

omit [Scalar α] in
/-- An operation whose result is not looked at. -/
theorem Operation.discard_eq_ok {β : Type} {op : Operation α β} {w w' : Workspace α} {b : β}
    (h : op w = .ok b w') : (op >>= fun _ => pure ()) w = .ok () w' :=
  EStateM.bind_of_ok h

/-- The models that come about by requests, successful and failed ones, each in an environment of
its own. Where one asks for a transcription, missing supports can be generated. -/
inductive Reachable : Model α → Prop where
  | start (id : Nat) (name : String) : Reachable { id, name }
  | step {m : Model α} (h : Reachable m) (e : Environment α) (request : Request α)
    (he : request.builds = true → e.Supplies) : Reachable (request.perform ⟨e, m⟩)

variable {m : Model α}

/-- A model without objects is sound. -/
theorem Model.sound_start (id : Nat) (name : String) : Sound ({ id, name } : Model α) where
  parameters := .empty
  infiniteVariables := .empty
  finiteVariables := .empty
  pointVariables := .empty
  derivatives := .empty
  measures := .empty
  constraints := .empty
  parameter p q hq := by
    obtain ⟨-, -, hg⟩ := Model.parameter_eq_ok.1 hq
    cases hg
  infinite i v hv := by cases hv
  derivative i d hd := by cases hd
  point i v hv := by cases hv
  measure i μ hμ := by cases hμ
  stored i equations he := by cases he
  equations i d equations hd := by cases hd

/-- Every model satisfies the invariant. -/
theorem Requested.inv [LawfulScalar α] (h : Requested m) : m.Inv False := by
  induction h with
  | start id name => exact .of_stale (Model.sound_start id name) rfl
  | step h e request ih => exact request.inv_perform ih False.elim

/-- The objects of every model fit together, whatever was asked for. -/
theorem Requested.sound [LawfulScalar α] (h : Requested m) : m.Sound :=
  h.inv.sound

namespace Reachable

theorem requested (h : Reachable m) : Requested m := by
  induction h with
  | start id name => exact .start id name
  | step _ e request _ ih => exact ih.step e request

/-- Every model satisfies the invariant. -/
theorem inv [LawfulScalar α] (h : Reachable m) : m.Inv True := by
  induction h with
  | start id name => exact .of_stale (Model.sound_start id name) rfl
  | step h e request he ih => exact request.inv_perform ih fun _ => he

/-- In the standard environment supports can be generated. -/
theorem replay (h : Reachable m) (requests : List (Request α)) :
    Reachable (Request.replay m requests) := by
  unfold Request.replay
  induction requests generalizing m with
  | nil => exact h
  | cons request rest ih => exact ih (.step h {} request fun _ => Environment.supplies_default)

end Reachable

/-! ## Readiness -/

/-- A transcription that agrees with a model: the parameters are those of the model, parameters that
something depends on have the supports that were recorded, everything live has its entry, and the
stored equations are the ones that were transcribed. -/
structure UpToDate (m : Model α) (t : Transcription α) : Prop where
  parameters : t.snapshot.parameters = m.liveRefs .parameter
  supports : ∀ p ∈ m.liveRefs .parameter, m.isUsed p = true →
    ∃ q, m.parameter (.given p) = .ok q ∧ t.snapshot.values p = .ok q.supports.values
  complete : Building.Complete m t
  equations : ∃ built : Model α, built.transcribe t.verbose = .ok t ∧
    ∀ ref ∈ m.liveRefs .derivative, ∃ equations,
      m.equations? ref.index = some equations ∧ built.equations? ref.index = some equations

/-- The transcription of a ready model is up to date, however the model came about, if its supports
are all defined. -/
theorem upToDate_of_ready [LawfulScalar α] {m : Model α} (h : Requested m) (hdef : m.Defined)
    (hready : m.ready = true) :
    ∃ t : Transcription α, m.transcription = some t ∧ UpToDate m t := by
  -- the model that was transcribed differs from this one off the grid only
  obtain ⟨built, t, ht, htranscribed, -, hprepared, hgrid⟩ := h.inv.ready hdef.gridDefined hready
  obtain ⟨-, hsnapshot⟩ := Model.grows_of_transcribe htranscribed
  have hrefs := fun kind => hgrid.objects.liveRefs kind
  refine ⟨t, ht, ?_, fun p hp hused => ?_, ?_, built, htranscribed, fun ref href => ?_⟩
  · rw [hsnapshot, Model.parameters_snapshot, hrefs]
  · obtain ⟨q, hq⟩ := Model.mem_liveRefs_parameter.1 hp
    obtain ⟨q₀, hq₀⟩ := hgrid.objects.symm.parameter hq
    obtain ⟨hvalues, -⟩ := hgrid.used p q₀ q (by rwa [← hgrid.objects.isUsed]) hq₀ hq
    exact ⟨q, hq, by rw [hsnapshot, Model.values_snapshot hq₀, hvalues]⟩
  · exact (Model.complete_of_transcribe htranscribed).of_liveRefs hrefs
  · rw [hrefs] at href
    obtain ⟨equations, he⟩ := hprepared.evaluated ref href
    exact ⟨equations, by rw [hgrid.equations ref href, he], he⟩

/-- A variable over an interval with its derivative, which was transcribed before an existing
support got one more label and supports were asked for outside the interval. -/
theorem upToDate_of_ready_relabelled :
    let p : Ref := ⟨0, .parameter, 1⟩
    let x : Ref := ⟨0, .infiniteVariable, 1⟩
    let m : Model ℚ := Request.replay { id := 0 }
      [.addParameter (.scalar (.interval 0 1)) "t" (some [0, 1]) 0 (some 6)
        (.finiteDifference .backward),
      .addInfiniteVariable "x" [.given p] none none .none false,
      .addDerivative (.given x) p "dx" (.ok "t"),
      .build none,
      .addSupports p [1] (.given .uniformGrid) true,
      .addSupports p [2] (.given .userDefined) true]
    Requested m ∧ m.Defined ∧ m.ready = true ∧ ∃ t, m.transcription = some t ∧ UpToDate m t := by
  intro p x m
  have hr : Requested m := .replay (.start 0 "model") _
  have hdef : m.Defined := .of_exact m
  have hready : m.ready = true := by decide +kernel
  exact ⟨hr, hdef, hready, upToDate_of_ready hr hdef hready⟩

end Discretization
