import Discretization.Proofs.Histories

/-!
# What Requests Are Made Of

Every request is a sequence of few primitive operations: those on the supports of one parameter, the
evaluation of one derivative, and edits of the model. So whatever the primitive operations keep,
every request keeps, also where it fails halfway.

## Main definitions

* `Parameter.New`: a parameter as it is added;
* `Model.Edits`: a change of the model that leaves supports alone;
* `Sustains`: a preorder that those primitive operations keep which take no supports away that were
  stored on purpose;
* `Governs`: a preorder that all primitive operations keep.

## Main results

* `Sustains.operation`: a preorder that the first kind of primitive operations keep is kept by every
  request, except perhaps by those few that ask for the second kind;
* `Governs.operation`: a preorder that the primitive operations keep is kept by every request.
-/

namespace Discretization

variable {α : Type} [Scalar α]

/-- A parameter as it is added: without supports, which are derived as its method asks for. -/
structure Parameter.New (q : Parameter α) : Prop where
  digits : 1 ≤ q.digits
  info : q.info = q.method.generativeInfo
  supports : q.supports = .empty
  hasInternal : q.hasInternal = false
  hasGenerative : q.hasGenerative = false
  hasEquations : q.hasEquations = false

/-- An edit of the model, which leaves the supports of all parameters alone. Only additions and
deletions of derivatives matter for the stored equations. -/
inductive Model.Edits (m : Model α) : Model α → Prop where
  | addDerivative {variableRef : Handle} {p : Ref} {name : String}
      {parameterName : Except (Error α) String} {ref : Ref} {m' : Model α}
      (h : m.addDerivative variableRef p name parameterName = .ok (ref, m')) : m.Edits m'
  | deleteDerivative {handle : Handle} {m' : Model α}
      (h : m.deleteDerivative handle = .ok ((), m')) : m.Edits m'
  | other {m' : Model α} (id : m'.id = m.id) (parameters : m'.parameters = m.parameters)
      (derivatives : m'.derivatives = m.derivatives) (equations : m'.equations = m.equations) :
      m.Edits m'

/-- A preorder on workspaces that the primitive operations keep of which requests are made that are
no changes of supports themselves. Supports are only replaced where there are none. -/
structure Sustains (R : Workspace α → Workspace α → Prop) : Prop where
  push : ∀ (w : Workspace α) (q : Parameter α), q.New →
    R w { w with model := (w.model.pushParameter q).2 }
  edit : ∀ w w' : Workspace α, w.model.Edits w'.model → R w w'
  place : ∀ p values label, Moves R (Store.set p values label false)
  add : ∀ p values label checked, Moves R (Store.add p values label checked)
  addGenerative : ∀ p, Moves R (Store.addGenerative p)
  evaluate : ∀ d, Moves R (Evaluation.evaluate d)

/-- A preorder on workspaces that the primitive operations keep. Whether it is kept where the way
changes in which supports are derived is left open. -/
structure Governs (R : Workspace α → Workspace α → Prop) : Prop where
  push : ∀ (w : Workspace α) (q : Parameter α), q.New →
    R w { w with model := (w.model.pushParameter q).2 }
  edit : ∀ w w' : Workspace α, w.model.Edits w'.model → R w w'
  set : ∀ p values label force, Moves R (Store.set p values label force)
  add : ∀ p values label checked, Moves R (Store.add p values label checked)
  delete : ∀ p label, Moves R (Store.delete p label)
  addGenerative : ∀ p, Moves R (Store.addGenerative p)
  setMethod : ∀ p method, Moves R (Store.setMethod p method)
  evaluate : ∀ d, Moves R (Evaluation.evaluate d)

/-! ## Composite operations -/

section Composite

open Operation

variable {R : Workspace α → Workspace α → Prop} [IsPreorder (Workspace α) R]

/-- A parameter is added without supports, and then the given ones or generated ones are. -/
theorem Modeling.moves_addParameter {domain : Domain α} {name : String}
    {supports : Option (List α)} {count : Int} {digits : Option Int} {method : DerivativeMethod}
    (hpush : ∀ q : Parameter α, q.New → q.domain = domain → q.method = method →
      ∀ w : Workspace α, R w { w with model := (w.model.pushParameter q).2 })
    (hset : ∀ p values, Moves R (Store.set (α := α) p values (.given .userDefined) false))
    (hfill : ∀ p, Moves R (Store.fillIn (α := α) p (some count) true none))
    (henv : ∀ {β : Type} {action : EnvironmentAction α β},
      Moves Environment.SameRules action → Moves R (onEnvironment action)) :
    Moves R (addParameter domain name supports count digits method) := by
  have known : ∀ digits : Int,
      Moves R (addParameterWith domain name supports count method digits) := by
    intro digits
    unfold addParameterWith
    dsimp only
    split
    · exact .throw_bind _ _
    cases domain.bounds with
    | error e => exact .throw_bind _ _
    | ok bounds =>
      -- the two checks are passed, so the digits of the new parameter are positive
      have hdigits : 1 ≤ digits := by omega
      refine moves_model.bind fun _ =>
        Moves.bind ⟨fun w => (ends_change _).2 ⟨fun p m hm => ?_, fun _ hm => ?_⟩⟩ fun p => ?_
      · rw [Except.pure_eq_ok] at hm
        cases hm
        exact hpush _ ⟨hdigits, rfl, rfl, rfl, rfl, rfl⟩ rfl rfl w
      · cases hm
      split
      · exact (hset _ _).bind fun _ => .pure _
      · split
        · exact (hfill _).bind fun _ => .pure _
        · exact .pure _
  rw [addParameter_eq]
  refine Moves.bind ?_ known
  cases digits with
  | some digits => exact .pure digits
  | none => exact henv Environment.moves_defaultDigits

theorem Evaluation.moves_evaluateAll (heval : ∀ d, Moves R (evaluate (α := α) d)) :
    Moves R (evaluateAll (α := α)) :=
  moves_model.bind fun _ =>
    Moves.bind (.forIn (fun d _ => (heval d).bind fun _ => .pure _) _) fun _ => .pure _

/-- Only checked values are added again: those of point variables and the rows of measures. -/
theorem Transcription.ends_restoreSupports_of {w : Workspace α}
    (hpoint : ∀ p value, Moves R (Store.add (α := α) p [value] (.given .userDefined) true))
    (hrow : ∀ ref μ, w.model.measure ref = .ok μ →
      ∀ pair ∈ μ.data.parameters.zip μ.data.supports,
        Moves R (Store.add (α := α) pair.1 pair.2 (.given μ.data.label) true)) :
    Ends (restoreSupports (α := α)) w (fun _ w' => R w w') fun w' => R w w' := by
  unfold restoreSupports
  rw [ends_bind, ends_model]
  refine Moves.ends (Moves.bind (.forIn (fun _ _ => (moves_check _).bind fun _ =>
    (moves_check _).bind fun _ => ?_) _) fun _ => Moves.bind (.forIn (fun ref _ =>
      moves_check_bind fun μ hμ => ?_) _) fun _ => .pure _) w
  on_goal 1 => refine Moves.bind (.forIn (fun _ _ => (hpoint _ _).bind fun _ => .pure _) _) ?_
  on_goal 2 =>
    refine Moves.bind (.forIn_of_mem (fun pair hpair _ =>
      (hrow ref μ hμ pair hpair).bind fun _ => .pure _) _) ?_
  all_goals exact fun _ => .pure _

theorem Transcription.moves_restoreSupports
    (hadd : ∀ p values label, Moves R (Store.add (α := α) p values label true)) :
    Moves R (restoreSupports (α := α)) :=
  ⟨fun _ => ends_restoreSupports_of (fun p value => hadd p [value] _) fun _ _ _ pair _ =>
    hadd pair.1 pair.2 _⟩

theorem Transcription.moves_prepareSupports
    (hfill : ∀ p, Moves R (Store.fillIn (α := α) p none false none))
    (hrestore : Moves R (restoreSupports (α := α)))
    (hderive : ∀ p, Moves R (Store.addGenerative (α := α) p))
    (heval : Moves R (Evaluation.evaluateAll (α := α))) :
    Moves R (prepareSupports (α := α)) :=
  moves_model.bind fun _ =>
    Moves.bind (.forIn (fun p _ => (hfill p).bind fun _ => .pure _) _)
      fun _ => hrestore.bind fun _ =>
        Moves.bind (.forIn (fun p _ => (hderive p).bind fun _ => .pure _) _) fun _ => heval

/-- Deleting a measure takes its own label off the parameters. -/
theorem Modeling.moves_deleteMeasure {handle : Handle}
    (herase : ∀ i : Int, Moves R (modifyModel fun m => { m with measures := m.measures.erase i }))
    (hdelete : ∀ p label, Moves R (Store.delete p label))
    (hstale : Moves R (modifyModel (·.markStale))) :
    Moves R (deleteMeasure handle : Operation α Unit) := by
  unfold deleteMeasure
  refine (moves_query _).bind fun _ => (moves_query _).bind fun _ => (moves_query _).bind fun _ =>
    (herase _).bind fun _ => ?_
  dsimp only
  -- only a label that is its own goes with the measure
  split
  · exact Moves.bind (.forIn (fun _ _ => (hdelete _ _).bind fun _ => .pure _) _) fun _ => hstale
  · exact hstale

/-- A build prepares the supports and marks the model as ready. -/
theorem Transcription.moves_build (hprepare : Moves R (prepareSupports (α := α)))
    (hready : ∀ t : Option (Transcription α), Moves R (modifyModel (·.markReady t)))
    (henv : ∀ {β : Type} {action : EnvironmentAction α β},
      Moves Environment.SameRules action → Moves R (onEnvironment action))
    (verbose : Option Bool) : Moves R (build (α := α) verbose) :=
  Moves.get.bind fun _ => hprepare.bind fun _ => moves_model.bind fun _ =>
    (moves_check _).bind fun _ => (hready _).bind fun _ =>
      (henv (Environment.moves_log _)).bind fun _ => .pure _

end Composite

/-! ## Edits -/

/-- Whether a request is an edit of the model. -/
def Request.edits : Request α → Bool
  | addInfiniteVariable _ _ _ _ _ _ | addFiniteVariable _ | addDerivative _ _ _ _
  | deleteDerivative _ | addConstraint _ _ _ _ _ | deleteConstraint _ | markStale => true
  | _ => false

namespace Operation

variable {β : Type} {w : Workspace α}

/-- What an edit leaves behind: another model in the same environment. Measures stay. -/
def Edited (w w' : Workspace α) : Prop :=
  w'.environment = w.environment ∧ w.model.Edits w'.model ∧ w'.model.measures = w.model.measures

omit [Scalar α] in
/-- An edit that is checked as a whole changes nothing where it fails. -/
theorem ends_edit {f : Model α → Except (Error α) (β × Model α)}
    (h : ∀ m b m', f m = .ok (b, m') → m.Edits m' ∧ m'.measures = m.measures) :
    Ends (change f) w (fun _ w' => Edited w w') fun w' => w' = w :=
  (ends_change f).2 ⟨fun b m hm => ⟨rfl, h w.model b m hm⟩, fun _ _ => rfl⟩

omit [Scalar α] in
theorem ends_edit_discard {f : Model α → Except (Error α) (β × Model α)}
    (h : ∀ m b m', f m = .ok (b, m') → m.Edits m' ∧ m'.measures = m.measures) :
    Ends (do let _ ← change f : Operation α Unit) w (fun _ w' => Edited w w') fun w' => w' = w := by
  rw [ends_bind]
  exact (ends_edit h).mono (fun _ _ h' => (ends_pure _).2 h') fun _ h' => h'

end Operation

/-- An edit either succeeds as a whole or changes nothing. -/
theorem Request.ends_of_edits {request : Request α} (h : request.edits = true) (w : Workspace α) :
    Ends request.operation w (fun _ w' => Operation.Edited w w') fun w' => w' = w := by
  cases request with
  | addInfiniteVariable name parameters lower upper start integer =>
    refine Operation.ends_edit_discard fun m ref m' hm => ?_
    obtain ⟨live, -, -, rfl⟩ := Model.exists_of_addInfiniteVariable hm
    exact ⟨.other rfl rfl rfl rfl, rfl⟩
  | addFiniteVariable v =>
    refine Operation.ends_edit_discard fun m ref m' hm => ?_
    rw [Except.pure_eq_ok] at hm
    cases hm
    exact ⟨.other rfl rfl rfl rfl, rfl⟩
  | addDerivative variableRef p name parameterName =>
    refine Operation.ends_edit_discard fun m ref m' hm => ⟨.addDerivative hm, ?_⟩
    obtain ⟨v, variableName, parameters, q, -, -, -, -, rfl⟩ := Model.exists_of_addDerivative hm
    rfl
  | deleteDerivative handle =>
    refine Operation.ends_edit fun m ref m' hm => ⟨.deleteDerivative hm, ?_⟩
    -- with or without the flag that goes, the environment and the model's name stay
    obtain ⟨ref, d, _, q, -, -, rfl, -, rfl⟩ := Model.exists_of_deleteDerivative hm
    split <;> rfl
  | addConstraint terms sense rhs name restrictions =>
    refine Operation.ends_edit_discard fun m ref m' hm => ?_
    obtain ⟨terms', relation, restrictions', -, -, rfl⟩ := Model.exists_of_addConstraint hm
    exact ⟨.other rfl rfl rfl rfl, rfl⟩
  | deleteConstraint handle =>
    refine Operation.ends_edit fun m ref m' hm => ?_
    simp only [Model.deleteConstraint, Except.bind_eq_ok, Except.pure_eq_ok, Prod.mk.injEq,
      true_and] at hm
    obtain ⟨ref, -, c, -, rfl⟩ := hm
    exact ⟨.other rfl rfl rfl rfl, rfl⟩
  | markStale => exact (Operation.ends_modifyModel _).2 ⟨rfl, .other rfl rfl rfl rfl, rfl⟩
  | _ => cases h

namespace Sustains

open Operation

variable {R : Workspace α → Workspace α → Prop} [IsPreorder (Workspace α) R]

omit [IsPreorder (Workspace α) R] in
/-- The environment does not matter. -/
theorem onEnvironment {β : Type} (h : Sustains R) (action : EnvironmentAction α β) :
    Moves R (onEnvironment action) :=
  ⟨fun w => (ends_onEnvironment action).2
    (.of_forall (fun _ e => h.edit w { w with environment := e } (.other rfl rfl rfl rfl))
      fun e => h.edit w { w with environment := e } (.other rfl rfl rfl rfl))⟩

omit [IsPreorder (Workspace α) R] in
/-- A change of objects other than parameters and derivatives. -/
theorem modifyModel (h : Sustains R) {f : Model α → Model α}
    (hf : ∀ m, (f m).id = m.id ∧ (f m).parameters = m.parameters ∧
      (f m).derivatives = m.derivatives ∧ (f m).equations = m.equations) :
    Moves R (modifyModel f : Operation α Unit) :=
  ⟨fun w => (ends_modifyModel f).2 (h.edit w { w with model := f w.model }
    (.other (hf w.model).1 (hf w.model).2.1 (hf w.model).2.2.1 (hf w.model).2.2.2))⟩

/-- A change that is checked as a whole. -/
theorem change {β : Type} (h : Sustains R) {f : Model α → Except (Error α) (β × Model α)}
    (hf : ∀ m b m', f m = .ok (b, m') → m.Edits m') : Moves R (change f) :=
  ⟨fun w => (ends_change f).2 ⟨fun b m hfm => h.edit w { w with model := m } (hf w.model b m hfm),
    fun _ _ => refl_of R w⟩⟩

theorem generateAndAdd (h : Sustains R) (p : Ref) (method : Option Label) (count : Option Int)
    (extra : Bool) (source : Option Nat) :
    Moves R (Store.generateAndAdd (α := α) p method count extra source) :=
  Store.moves_generateAndAdd (h.add p) (fun _ => h.onEnvironment _) method count extra source

theorem fillIn (h : Sustains R) (p : Ref) (count : Option Int) (extend : Bool)
    (source : Option Nat) : Moves R (Store.fillIn (α := α) p count extend source) :=
  Store.moves_fillIn (h.generateAndAdd p) (fun _ => h.onEnvironment _) count extend source

/-- A new parameter gets its first supports. -/
theorem addParameter (h : Sustains R) (domain : Domain α) (name : String)
    (supports : Option (List α)) (count : Int) (digits : Option Int) (method : DerivativeMethod) :
    Moves R (Modeling.addParameter domain name supports count digits method) := by
  refine Modeling.moves_addParameter (fun q hnew _ _ w => h.push w q hnew)
    (fun p values => h.place p values _) (fun p => h.fillIn p _ _ _) fun _ => h.onEnvironment _

/-- A point variable stores its values on the parameters. -/
theorem addPointVariable (h : Sustains R) (variableRef : Handle) (values : List α) (name : String) :
    Moves R (Modeling.addPointVariable variableRef values name) := by
  unfold Modeling.addPointVariable
  refine (moves_query _).bind fun ref => (moves_query _).bind fun _ => ?_
  dsimp only
  split
  · exact .throw_bind _ _
  · refine Moves.bind (.mapM fun _ => moves_query _) fun rounded =>
      Moves.bind (.forIn (fun _ _ => (h.add _ _ _ _).bind fun _ => .pure _) _) fun _ =>
        h.change fun m b m' hm => ?_
    rw [Except.pure_eq_ok] at hm
    cases hm
    exact .other rfl rfl rfl rfl

/-- A measure stores its points on the parameters that it integrates over. -/
theorem addMeasure (h : Sustains R) (function : Handle) (data : MeasureData α) (name : String) :
    Moves R (Modeling.addMeasure function data name) := by
  -- the measure itself comes last, after its points
  have push : ∀ (ref : Ref) (functionName : String), Moves R (Operation.change fun m =>
      pure (m.pushMeasure
        { name := nameOr name s!"{data.name}({functionName})", function := ref, data }) :
      Operation α Ref) := by
    refine fun ref functionName => h.change fun m b m' hm => ?_
    rw [Except.pure_eq_ok] at hm
    cases hm
    exact .other rfl rfl rfl rfl
  unfold Modeling.addMeasure
  refine (moves_query _).bind fun ref => (moves_query _).bind fun _ =>
    Moves.bind (.forIn (fun _ _ => (moves_query _).bind fun _ => ?_) _) fun _ =>
      Moves.bind (.mapM fun _ => moves_query _) fun rows =>
        Moves.bind (.forIn (fun _ _ => (h.add _ _ _ _).bind fun _ => .pure _) _) fun _ => ?_
  · split
    · exact .throw_bind _ _
    · exact .pure _
  · dsimp only
    split
    · exact (moves_query _).bind fun _ => push ref _
    · exact (Moves.pure _).bind fun _ => push ref _

theorem evaluateAll (h : Sustains R) : Moves R (Evaluation.evaluateAll (α := α)) :=
  Evaluation.moves_evaluateAll h.evaluate

theorem restoreSupports (h : Sustains R) : Moves R (Transcription.restoreSupports (α := α)) :=
  Transcription.moves_restoreSupports fun p values label => h.add p values label true

theorem prepareSupports (h : Sustains R) : Moves R (Transcription.prepareSupports (α := α)) :=
  Transcription.moves_prepareSupports (fun p => h.fillIn p none false none) h.restoreSupports
    h.addGenerative h.evaluateAll

theorem build (h : Sustains R) (verbose : Option Bool) :
    Moves R (Transcription.build (α := α) verbose) :=
  Transcription.moves_build h.prepareSupports (fun _ => h.modifyModel fun _ => ⟨rfl, rfl, rfl, rfl⟩)
    (fun _ => h.onEnvironment _) verbose

theorem edits (h : Sustains R) {request : Request α} (hr : request.edits = true) :
    Moves R request.operation :=
  ⟨fun w => (request.ends_of_edits hr w).mono (fun _ w' hw => h.edit w w' hw.2.1)
    fun _ hw => hw ▸ refl_of R w⟩

/-- What the primitive operations keep, every request keeps that is made of them. -/
theorem operation (h : Sustains R) (request : Request α)
    (hset : ∀ p values label force, request = .setSupports p values label force →
      Moves R (Store.set p values label force))
    (hdelete : ∀ p label, request = .deleteSupports p label → Moves R (Store.delete p label))
    (hmeasure : ∀ handle, request = .deleteMeasure handle →
      Moves R (Modeling.deleteMeasure handle : Operation α Unit))
    (hinfo : ∀ p info, request = .setGenerativeInfo p info → Moves R (Store.setInfo p info))
    (hmethod : ∀ p method, request = .setDerivativeMethod p method →
      Moves R (Store.setMethod (α := α) p method)) : Moves R request.operation := by
  cases request with
  | addParameter domain name supports count digits method =>
    exact (h.addParameter ..).bind fun _ => .pure _
  | addInfiniteVariable name parameters lower upper start integer => exact h.edits rfl
  | addFiniteVariable v => exact h.edits rfl
  | addPointVariable variableRef values name =>
    exact (h.addPointVariable ..).bind fun _ => .pure _
  | addDerivative variableRef p name parameterName => exact h.edits rfl
  | deleteDerivative handle => exact h.edits rfl
  | addMeasure function data shaped name => exact (h.addMeasure ..).bind fun _ => .pure _
  | deleteMeasure handle => exact hmeasure handle rfl
  | addConstraint terms sense rhs name restrictions => exact h.edits rfl
  | deleteConstraint handle => exact h.edits rfl
  | markStale => exact h.edits rfl
  | setSupports p values label force => exact hset p values label force rfl
  | addSupports p values label checked => exact (h.add ..).bind fun _ => .pure _
  | deleteSupports p label => exact hdelete p label rfl
  | generateSupports p method count extra source =>
    exact (h.generateAndAdd ..).bind fun _ => .pure _
  | fillInSupports p count extend source => exact h.fillIn p count extend source
  | addGenerativeSupports p => exact h.addGenerative p
  | setGenerativeInfo p info => exact hinfo p info rfl
  | setDerivativeMethod p method => exact hmethod p method rfl
  | evaluate derivative => exact (h.evaluate _).bind fun _ => .pure _
  | evaluateAll => exact h.evaluateAll
  | restoreSupports => exact h.restoreSupports
  | prepareSupports => exact h.prepareSupports
  | build verbose => exact (h.build verbose).bind fun _ => .pure _

end Sustains

namespace Governs

open Operation

variable {R : Workspace α → Workspace α → Prop}

theorem sustains (h : Governs R) : Sustains R where
  push := h.push
  edit := h.edit
  place p values label := h.set p values label false
  add := h.add
  addGenerative := h.addGenerative
  evaluate := h.evaluate

variable [IsPreorder (Workspace α) R]

/-- Deleting a measure takes its own label off the parameters. -/
theorem deleteMeasure (h : Governs R) (handle : Handle) :
    Moves R (Modeling.deleteMeasure handle : Operation α Unit) := by
  have leaves : ∀ {f : Model α → Model α}, (∀ m, (f m).id = m.id ∧ (f m).parameters = m.parameters ∧
      (f m).derivatives = m.derivatives ∧ (f m).equations = m.equations) →
      Moves R (Operation.modifyModel f : Operation α Unit) := h.sustains.modifyModel
  exact Modeling.moves_deleteMeasure (fun _ => leaves fun _ => ⟨rfl, rfl, rfl, rfl⟩) h.delete
    (leaves fun _ => ⟨rfl, rfl, rfl, rfl⟩)

theorem prepareSupports (h : Governs R) : Moves R (Transcription.prepareSupports (α := α)) :=
  h.sustains.prepareSupports

/-- What the primitive operations keep, every request keeps. -/
theorem operation (h : Governs R) (request : Request α)
    (hinfo : ∀ p info, request = .setGenerativeInfo p info → Moves R (Store.setInfo p info)) :
    Moves R request.operation :=
  h.sustains.operation request (fun p values label force _ => h.set p values label force)
    (fun p label _ => h.delete p label) (fun handle _ => h.deleteMeasure handle) hinfo
    fun p method _ => h.setMethod p method

end Governs

/-- The model that a request leaves behind comes after the one before in any preorder that its
operation keeps. -/
theorem Request.moves_perform {R : Workspace α → Workspace α → Prop} {request : Request α}
    (h : Moves R request.operation) (w : Workspace α) :
    ∃ w', w'.model = request.perform w ∧ R w w' := by
  have hends := h.ends w
  unfold perform
  split
  · rename_i b w' hrun
    exact ⟨w', rfl, hends.of_ok hrun⟩
  · rename_i e w' hrun
    exact ⟨w', rfl, hends.of_error hrun⟩

end Discretization
