import Discretization.Proofs.Histories

/-!
# Readiness Decides Nothing

Operations mark a model as stale or ready and attach its transcription, but no request looks at what
was marked or attached before. So a request takes the same course on two models that differ in
readiness only: whether the model was transcribed shows in the flag and the transcription alone.

## Main definitions

* `Model.unready`: the model as if it had never been transcribed;
* `Oblivious`: an operation that takes the same course on models that differ in readiness only.

## Main results

* `Model.transcribe_unready`: a transcription does not depend on the one before;
* `Request.oblivious`: every request takes the same course whether the model is ready or not;
* `Request.unready_perform`: so the models that it leads to differ in readiness only.
-/

namespace Discretization

variable {α : Type}

/-! ## Models that differ in readiness -/

/-- The model as if it had never been transcribed. -/
def Model.unready (m : Model α) : Model α := { m with ready := false, transcription := none }

/-- A result and the changed model, as if it had never been transcribed. -/
def Model.unreadyWith {β : Type} (result : β × Model α) : β × Model α :=
  (result.1, result.2.unready)

/-- Two workspaces with the same environment whose models differ in readiness only. -/
structure Workspace.Alike (w w' : Workspace α) : Prop where
  environment : w'.environment = w.environment
  model : w'.model.unready = w.model.unready

theorem Workspace.alike_unready (e : Environment α) (m : Model α) :
    Workspace.Alike ⟨e, m⟩ ⟨e, m.unready⟩ :=
  ⟨rfl, rfl⟩

/-- What does not look at readiness finds the same. -/
theorem Workspace.Alike.eq_of {w w' : Workspace α} (h : w.Alike w') {γ : Type} {f : Model α → γ}
    (hf : ∀ m, f m.unready = f m) : f w'.model = f w.model := by
  rw [← hf, h.model, hf]

/-- Two runs succeed with the same result or fail with the same error, and leave workspaces behind
that differ in readiness only. -/
inductive EndsAlike {β : Type} :
    EStateM.Result (Error α) (Workspace α) β → EStateM.Result (Error α) (Workspace α) β → Prop where
  | ok (b : β) {w w' : Workspace α} (h : w.Alike w') : EndsAlike (.ok b w) (.ok b w')
  | error (e : Error α) {w w' : Workspace α} (h : w.Alike w') : EndsAlike (.error e w) (.error e w')

/-- The operation takes the same course on models that differ in readiness only. -/
structure Oblivious {β : Type} (op : Operation α β) : Prop where
  runs : ∀ {w w' : Workspace α}, w.Alike w' → EndsAlike (op w) (op w')

/-! ## How operations are put together -/

namespace Oblivious

open Operation

variable {β γ : Type}

theorem pure (b : β) : Oblivious (pure b : Operation α β) :=
  ⟨fun h => .ok b h⟩

theorem throw (e : Error α) : Oblivious (throw e : Operation α β) :=
  ⟨fun h => .error e h⟩

theorem bind {x : Operation α β} {f : β → Operation α γ} (hx : Oblivious x)
    (hf : ∀ b, Oblivious (f b)) : Oblivious (x >>= f) := by
  refine ⟨fun {w w'} h => ?_⟩
  change EndsAlike (EStateM.bind x f w) (EStateM.bind x f w')
  have hends := hx.runs h
  unfold EStateM.bind
  generalize x w = r, x w' = r' at hends ⊢
  cases hends with
  | ok b h => exact (hf b).runs h
  | error e h => exact .error e h

/-- Nothing follows a failure. -/
theorem throw_bind (e : Error α) (f : β → Operation α γ) :
    Oblivious ((MonadExcept.throw e : Operation α β) >>= f) :=
  ⟨fun h => .error e h⟩

/-- A step that is taken or left out before the same rest. -/
theorem when {c : Prop} [Decidable c] {x : Operation α Unit} {f : Unit → Operation α β}
    (hx : Oblivious x) (hf : Oblivious (f ())) : Oblivious (if c then x >>= f else f ()) := by
  split
  · exact hx.bind fun _ => hf
  · exact hf

theorem check (result : Except (Error α) β) : Oblivious (check result) := by
  cases result with
  | error e => exact throw e
  | ok b => exact pure b

/-- Checks do not look at readiness. -/
theorem query {f : Model α → Except (Error α) β} (hf : ∀ m, f m.unready = f m) :
    Oblivious (query f) := by
  refine ⟨fun {w w'} h => ?_⟩
  change EndsAlike (Operation.check (f w.model) w) (Operation.check (f w'.model) w')
  rw [h.eq_of hf]
  exact (check _).runs h

/-- What follows a check can rely on its success. -/
theorem query_bind {f : Model α → Except (Error α) β} {body : β → Operation α γ}
    (hf : ∀ m, f m.unready = f m) (hbody : ∀ m b, f m = .ok b → Oblivious (body b)) :
    Oblivious (Operation.query f >>= body) := by
  refine ⟨fun {w w'} h => ?_⟩
  change EndsAlike ((Operation.check (f w.model) >>= body) w)
    ((Operation.check (f w'.model) >>= body) w')
  rw [h.eq_of hf]
  cases hb : f w.model with
  | error e => exact .error e h
  | ok b => exact (hbody _ b hb).runs h

theorem model_bind {body : Model α → Operation α β} (hsame : ∀ m, body m.unready = body m)
    (hbody : ∀ m, Oblivious (body m)) : Oblivious (model >>= body) := by
  refine ⟨fun {w w'} h => ?_⟩
  change EndsAlike (body w.model w) (body w'.model w')
  rw [h.eq_of hsame]
  exact (hbody _).runs h

/-- A change of the model may mark it, as long as the marks decide nothing else. -/
theorem modifyModel {f : Model α → Model α} (hf : ∀ m, (f m.unready).unready = (f m).unready) :
    Oblivious (modifyModel f) :=
  ⟨fun h => .ok _ ⟨h.environment, h.eq_of (f := fun m => (f m).unready) hf⟩⟩

theorem change {f : Model α → Except (Error α) (β × Model α)}
    (hf : ∀ m, Model.unreadyWith <$> f m.unready = Model.unreadyWith <$> f m) :
    Oblivious (change f) := by
  refine ⟨fun {w w'} h => ?_⟩
  have hsame : Model.unreadyWith <$> f w'.model = Model.unreadyWith <$> f w.model :=
    h.eq_of (f := fun m => Model.unreadyWith <$> f m) hf
  let store (found : β × Model α) : Operation α β :=
    Operation.modifyModel (fun _ => found.2) >>= fun _ => Pure.pure found.1
  change EndsAlike ((Operation.check (f w.model) >>= store) w)
    ((Operation.check (f w'.model) >>= store) w')
  -- alike results are both errors, or successes with the same value
  generalize f w.model = r, f w'.model = r' at hsame ⊢
  obtain e | ⟨b, m⟩ := r <;> obtain e' | ⟨b', m'⟩ := r'
  · cases hsame
    exact .error _ h
  · cases hsame
  · cases hsame
  · obtain ⟨rfl, hm⟩ := Prod.mk.inj (Except.ok.inj hsame)
    exact .ok _ ⟨h.environment, hm⟩

theorem onEnvironment (action : EnvironmentAction α β) : Oblivious (onEnvironment action) := by
  refine ⟨fun {w w'} h => ?_⟩
  unfold Operation.onEnvironment
  rw [h.environment]
  split
  · exact .ok _ ⟨rfl, h.model⟩
  · exact .error _ ⟨rfl, h.model⟩

theorem forIn {xs : List γ} {body : γ → β → Operation α (ForInStep β)}
    (h : ∀ x b, Oblivious (body x b)) (b : β) : Oblivious (forIn xs b body) := by
  induction xs generalizing b with
  | nil =>
    rw [List.forIn_nil]
    exact pure b
  | cons x rest ih =>
    rw [List.forIn_cons]
    refine (h x b).bind fun r => ?_
    cases r with
    | done b => exact pure b
    | yield b => exact ih b

theorem mapM {xs : List γ} {f : γ → Operation α β} (h : ∀ x, Oblivious (f x)) :
    Oblivious (xs.mapM f) := by
  induction xs with
  | nil =>
    rw [List.mapM_nil]
    exact pure _
  | cons x rest ih =>
    rw [List.mapM_cons]
    exact (h x).bind fun _ => ih.bind fun _ => pure _

end Oblivious

/-! ## Reading and changing a model -/

namespace Model

variable (m : Model α)

/-- Induction on the rank of the object: a measure asks for the parameters of its function only. -/
theorem functionParameters_unready (ref : Ref) :
    m.unready.functionParameters ref = m.functionParameters ref := by
  induction hrank : ref.rank using Nat.strongRecOn generalizing ref with
  | ind rank ih =>
    rw [functionParameters, functionParameters]
    split
    · rfl
    · rfl
    · rfl
    · refine bind_congr fun μ => ?_
      split
      · rw [ih _ (by omega) _ rfl]
      · rfl
    · rfl

theorem parametersOf_unready (ref : Ref) : m.unready.parametersOf ref = m.parametersOf ref := by
  unfold parametersOf
  simp only [functionParameters_unready]
  rfl

theorem unready_addInfiniteVariable (name : String) (parameters : List Handle)
    (lower upper : Option α) (start : Start α) (integer : Bool) :
    unreadyWith <$> m.unready.addInfiniteVariable name parameters lower upper start integer =
      unreadyWith <$> m.addInfiniteVariable name parameters lower upper start integer := by
  unfold addInfiniteVariable
  split
  · rfl
  -- the marks are taken off where the changed model is returned
  simp only [map_bind]
  refine bind_congr fun live => ?_
  split <;> rfl

theorem unready_addDerivative (variableRef : Handle) (p : Ref) (name : String)
    (parameterName : Except (Error α) String) :
    unreadyWith <$> m.unready.addDerivative variableRef p name parameterName =
      unreadyWith <$> m.addDerivative variableRef p name parameterName := by
  unfold addDerivative
  simp only [map_bind]
  refine bind_congr fun ref => bind_congr fun found => ?_
  split
  · rfl
  simp only [map_bind]
  exact bind_congr fun q => rfl

theorem unready_deleteDerivative (h : Handle) :
    unreadyWith <$> m.unready.deleteDerivative h = unreadyWith <$> m.deleteDerivative h := by
  unfold deleteDerivative
  simp only [map_bind]
  refine bind_congr fun ref => bind_congr fun d => bind_congr fun _ => bind_congr fun q => ?_
  -- the flag of the parameter is reset or not, by the equations that are left
  have forget : ∀ (stored : Bool) (m m' : Model α), m'.unready = m.unready →
      (if stored then m' else m'.modifyParameter d.parameter
        fun q => { q with hasEquations := false }).markStale.unready =
      (if stored then m else m.modifyParameter d.parameter
        fun q => { q with hasEquations := false }).markStale.unready := by
    intro stored m m' h
    cases stored with
    | true => exact h
    | false =>
      exact congrArg (·.modifyParameter d.parameter fun q => { q with hasEquations := false }) h
  exact congrArg (fun m => Except.ok ((), m)) (forget _ _ _ rfl)

variable [Scalar α]

/-- Only the names of reduced variables, which belong to a transcription, depend on it. -/
theorem nameOf_unready {ref : Ref} (h : ref.kind ≠ .reducedVariable) :
    m.unready.nameOf ref = m.nameOf ref := by
  rw [nameOf, nameOf, if_neg h, if_neg h]
  rfl

theorem unready_addConstraint (terms : List (α × Handle)) (sense : String) (rhs : α)
    (name : String) (restrictions : List (Handle × (α × α))) :
    unreadyWith <$> m.unready.addConstraint terms sense rhs name restrictions =
      unreadyWith <$> m.addConstraint terms sense rhs name restrictions := by
  unfold addConstraint
  split
  · rfl
  simp only [map_bind]
  exact bind_congr fun relation => bind_congr fun terms => bind_congr fun restrictions => rfl

omit [Scalar α] in
theorem unready_deleteConstraint (h : Handle) :
    unreadyWith <$> m.unready.deleteConstraint h = unreadyWith <$> m.deleteConstraint h := by
  unfold deleteConstraint
  simp only [map_bind]
  exact bind_congr fun ref => bind_congr fun c => rfl

omit [Scalar α] in
theorem unready_markStaleIfUsed (p : Ref) :
    (m.unready.markStaleIfUsed p).unready = (m.markStaleIfUsed p).unready := by
  unfold markStaleIfUsed
  change (if m.isUsed p then _ else _ : Model α).unready = _
  split <;> rfl

omit [Scalar α] in
theorem unready_dropEquationsOf (p : Ref) :
    (m.unready.dropEquationsOf p).unready = (m.dropEquationsOf p).unready := by
  rw [dropEquationsOf_eq, dropEquationsOf_eq]
  rfl

end Model

/-! ## Operations on supports and derivatives -/

open Operation

theorem oblivious_parameter (h : Handle) : Oblivious (query fun m : Model α => m.parameter h) :=
  .query fun _ => rfl

theorem oblivious_modifyParameter (p : Ref) (f : Parameter α → Parameter α) :
    Oblivious (modifyModel (·.modifyParameter p f)) :=
  .modifyModel fun _ => rfl

theorem oblivious_markStaleIfUsed (p : Ref) :
    Oblivious (modifyModel (·.markStaleIfUsed p) : Operation α Unit) :=
  .modifyModel fun m => m.unready_markStaleIfUsed p

variable [Scalar α]

namespace Store

omit [Scalar α] in
theorem oblivious_resetEquations (p : Ref) :
    Oblivious (resetEquations p : Operation α Unit) := by
  refine (oblivious_parameter p).bind fun q => ?_
  split
  · exact (Oblivious.onEnvironment _).bind fun _ =>
      .modifyModel fun m => m.unready_dropEquationsOf p
  · exact .pure _

theorem oblivious_delete (p : Ref) (label : Label) :
    Oblivious (delete p label : Operation α Unit) := by
  -- the rest after the equations is not the same for all supports and for those of a label
  have cleared : ∀ (q : Parameter α) {rest : Operation α Unit}, Oblivious rest →
      Oblivious (if q.hasEquations then do
        warn .equationsDeleted
        modifyModel (·.dropEquationsOf p)
        rest
      else rest) := by
    intro q rest hrest
    split
    · exact (Oblivious.onEnvironment _).bind fun _ =>
        (Oblivious.modifyModel fun m => m.unready_dropEquationsOf p).bind fun _ => hrest
    · exact hrest
  refine (oblivious_parameter p).bind fun q => .model_bind (fun _ => rfl) fun m => ?_
  dsimp only
  split
  · exact .when (.throw _) <| .when (.throw _) <| cleared q <|
      (oblivious_modifyParameter p _).bind fun _ => oblivious_markStaleIfUsed p
  · refine cleared q <| (Oblivious.check _).bind fun derived =>
      (oblivious_modifyParameter p _).bind fun _ => ?_
    split
    · exact .throw_bind _ _
    · exact (oblivious_modifyParameter p _).bind fun _ => oblivious_markStaleIfUsed p

theorem oblivious_resetGenerative (p : Ref) :
    Oblivious (resetGenerative p : Operation α Unit) := by
  refine (oblivious_parameter p).bind fun q => ?_
  split
  · exact (Oblivious.check _).bind fun label => oblivious_delete p label
  · exact .pure _

theorem oblivious_set (p : Ref) (values : List α) (label : Argument Label) (force : Bool) :
    Oblivious (set p values label force) := by
  refine (oblivious_parameter p).bind fun q => (Oblivious.check _).bind fun l =>
    .when (.throw _) <| (Oblivious.check _).bind fun rounded => (Oblivious.check _).bind fun _ =>
      .when (.onEnvironment _) <| (oblivious_modifyParameter p _).bind fun _ =>
        (oblivious_resetEquations p).bind fun _ => (oblivious_modifyParameter p _).bind fun _ =>
          oblivious_markStaleIfUsed p

theorem oblivious_add (p : Ref) (values : List α) (label : Argument Label) (checked : Bool) :
    Oblivious (add p values label checked) := by
  refine (oblivious_parameter p).bind fun q => (Oblivious.check _).bind fun l =>
    (Oblivious.check _).bind fun rounded => .when (.check _) <|
      (oblivious_modifyParameter p _).bind fun _ => ?_
  dsimp only
  split
  · exact (oblivious_resetEquations p).bind fun _ => (oblivious_resetGenerative p).bind fun _ =>
      (oblivious_markStaleIfUsed p).bind fun _ => .pure _
  · exact .pure _

theorem oblivious_generateAndAdd (p : Ref) (method : Option Label) (count : Option Int)
    (extra : Bool) (source : Option Nat) :
    Oblivious (generateAndAdd (α := α) p method count extra source) :=
  (oblivious_parameter p).bind fun _ => (Oblivious.onEnvironment _).bind fun _ =>
    oblivious_add p _ _ _

theorem oblivious_fillIn (p : Ref) (count : Option Int) (extend : Bool) (source : Option Nat) :
    Oblivious (fillIn (α := α) p count extend source) := by
  have filled : ∀ count : Int, Oblivious (do
      let current : Int := (← query (·.parameter p)).supports.size
      if (extend || current = 0) && current < count then
        let _ ← generateAndAdd p none (some (count - current)) (0 < current) source :
      Operation α Unit) := by
    refine fun count => (oblivious_parameter p).bind fun q => ?_
    dsimp only
    split
    · exact (oblivious_generateAndAdd p _ _ _ _).bind fun _ => .pure _
    · exact .pure _
  unfold fillIn
  cases count with
  | some count => exact (Oblivious.pure count).bind filled
  | none => exact (Oblivious.onEnvironment _).bind filled

theorem oblivious_addGenerative (p : Ref) :
    Oblivious (addGenerative p : Operation α Unit) := by
  refine (oblivious_parameter p).bind fun q => ?_
  split
  · exact .pure _
  · split
    · exact .pure _
    · exact (Oblivious.check _).bind fun _ => (Oblivious.check _).bind fun _ =>
        (oblivious_add p _ _ _).bind fun _ => oblivious_modifyParameter p _

theorem oblivious_setInfo (p : Ref) (info : Argument (GenerativeInfo α)) :
    Oblivious (setInfo p info) := by
  cases info with
  | mistyped value => exact .throw _
  | given info =>
    exact (oblivious_resetGenerative p).bind fun _ => (oblivious_parameter p).bind fun _ =>
      (oblivious_modifyParameter p _).bind fun _ => oblivious_markStaleIfUsed p

theorem oblivious_setMethod (p : Ref) (method : Argument DerivativeMethod) :
    Oblivious (setMethod p method : Operation α Unit) := by
  cases method with
  | mistyped value => exact .throw _
  | given method =>
    exact (oblivious_parameter p).bind fun _ => (oblivious_resetEquations p).bind fun _ =>
      (oblivious_resetGenerative p).bind fun _ => (oblivious_modifyParameter p _).bind fun _ =>
        oblivious_markStaleIfUsed p

end Store

namespace Evaluation

theorem oblivious_evaluate (d : Ref) : Oblivious (evaluate (α := α) d) := by
  refine (Oblivious.query fun _ => rfl).bind fun d => .model_bind (fun _ => rfl) fun m => ?_
  split
  · exact .pure _
  · exact (Oblivious.query fun _ => rfl).bind fun object =>
      (Store.oblivious_addGenerative _).bind fun _ => (oblivious_parameter _).bind fun _ =>
        (Oblivious.check _).bind fun _ => (Oblivious.modifyModel fun _ => rfl).bind fun _ => .pure _

theorem oblivious_evaluateAll : Oblivious (evaluateAll (α := α)) :=
  .model_bind (fun _ => rfl) fun _ =>
    (Oblivious.forIn (fun d _ => (oblivious_evaluate d).bind fun _ => .pure _) _).bind fun _ =>
      .pure _

end Evaluation

namespace Transcription

theorem oblivious_restoreSupports : Oblivious (restoreSupports (α := α)) := by
  refine .model_bind (fun _ => rfl) fun m =>
    (Oblivious.forIn (fun ref _ => (Oblivious.check _).bind fun v => (Oblivious.check _).bind
      fun _ => (Oblivious.forIn (fun _ _ => ?_) _).bind fun _ => .pure _) _).bind fun _ =>
      (Oblivious.forIn (fun ref _ => (Oblivious.check _).bind fun μ =>
        (Oblivious.forIn (fun _ _ => ?_) _).bind fun _ => .pure _) _).bind fun _ => .pure _
  all_goals exact (Store.oblivious_add _ _ _ _).bind fun _ => .pure _

theorem oblivious_prepareSupports : Oblivious (prepareSupports (α := α)) :=
  .model_bind (fun _ => rfl) fun _ =>
    (Oblivious.forIn (fun p _ => (Store.oblivious_fillIn p _ _ _).bind fun _ => .pure _) _).bind
      fun _ => oblivious_restoreSupports.bind fun _ =>
        (Oblivious.forIn (fun p _ => (Store.oblivious_addGenerative p).bind fun _ => .pure _)
          _).bind fun _ => Evaluation.oblivious_evaluateAll

end Transcription

/-! ## Transcriptions -/

namespace Building

variable (m : Model α)

/-- Induction on the rank of the object: a measure asks for expressions of its function only. -/
theorem expression_unready (ref : Ref) (point : Point (Coordinate α)) :
    expression m.unready ref point = expression m ref point := by
  induction hrank : ref.rank using Nat.strongRecOn generalizing ref point with
  | ind rank ih =>
    rw [expression, expression]
    split
    · rfl
    · rfl
    · rfl
    · rfl
    · rfl
    · rw [m.functionParameters_unready]
      refine bind_congr fun parameters => bind_congr fun key => bind_congr fun μ =>
        bind_congr fun entry => ?_
      split
      · rfl
      · refine bind_congr fun weights => bind_congr fun points => ?_
        split
        · rename_i hlt
          -- the functions of measures at all points, by the induction hypothesis
          have hfunction : ∀ point, expression m.unready μ.function point =
              expression m μ.function point := fun point => ih _ (hrank ▸ hlt) _ point rfl
          simp only [hfunction]
          rfl
        · rfl
    · rfl

/-- The builder does not look at readiness. -/
theorem run_unready : run m.unready = run m := by
  have hmeasures : measures m.unready = measures m := by
    unfold measures
    simp only [m.functionParameters_unready, expression_unready]
    rfl
  have hconstraints : constraints m.unready = constraints m := by
    unfold constraints constraintAt combination
    simp only [m.parametersOf_unready, expression_unready]
    rfl
  have hevaluations : evaluations m.unready = evaluations m := by
    unfold evaluations equationAt
    simp only [expression_unready]
    rfl
  have hvars : vars m.unready = vars m := rfl
  rw [run, run, hvars, hmeasures, hconstraints, hevaluations]

end Building

theorem Model.transcribe_unready (m : Model α) (verbose : Bool) :
    m.unready.transcribe verbose = m.transcribe verbose := by
  unfold transcribe
  rw [Building.run_unready]
  rfl

namespace Transcription

/-- A build takes the same course and gives the same transcription, whatever was built before. -/
theorem oblivious_build (verbose : Option Bool) : Oblivious (build (α := α) verbose) := by
  -- the naming is settled first, from the settings alone
  let rest (verbose : Bool) : Operation α (Transcription α) := do
    prepareSupports
    let m ← model
    let t ← check (m.transcribe verbose)
    modifyModel (·.markReady (some t))
    onEnvironment (Environment.log
      [.transcribed m.name t.finite.vars.length t.finite.constraints.length t.reduced.length])
    return t
  have hrest : ∀ verbose, Oblivious (rest verbose) := fun verbose =>
    oblivious_prepareSupports.bind fun _ => .model_bind
      (fun m => by simp only [m.transcribe_unready]; rfl) fun m =>
        (Oblivious.check _).bind fun t => (Oblivious.modifyModel fun _ => rfl).bind fun _ =>
          (Oblivious.onEnvironment _).bind fun _ => .pure _
  refine ⟨fun {w w'} h => ?_⟩
  change EndsAlike (rest (verbose.getD w.environment.settings.defaultVerbose) w)
    (rest (verbose.getD w'.environment.settings.defaultVerbose) w')
  rw [h.environment]
  exact (hrest _).runs h

end Transcription

/-! ## Building up a model -/

namespace Modeling

theorem oblivious_addParameter (domain : Domain α) (name : String) (supports : Option (List α))
    (count : Int) (digits : Option Int) (method : DerivativeMethod) :
    Oblivious (addParameter domain name supports count digits method) := by
  -- the digits are given or read from the settings
  have known : ∀ digits : Int,
      Oblivious (addParameterWith domain name supports count method digits) := by
    intro digits
    unfold addParameterWith
    refine .when (.throw _) ?_
    dsimp only
    split
    · exact .throw_bind _ _
    · refine .model_bind (fun _ => rfl) fun m => (Oblivious.change fun _ => rfl).bind fun p => ?_
      split
      · exact (Store.oblivious_set p _ _ _).bind fun _ => .pure _
      · split
        · exact (Store.oblivious_fillIn p _ _ _).bind fun _ => .pure _
        · exact .pure _
  rw [addParameter_eq]
  refine Oblivious.bind ?_ known
  cases digits with
  | some digits => exact .pure digits
  | none => exact .onEnvironment Environment.defaultDigits

theorem oblivious_addPointVariable (variableRef : Handle) (values : List α) (name : String) :
    Oblivious (addPointVariable variableRef values name) := by
  refine (Oblivious.query fun _ => rfl).bind fun ref => (Oblivious.query fun _ => rfl).bind
    fun _ => .when (.throw _) ?_
  exact (Oblivious.mapM fun _ => .query fun _ => rfl).bind fun rounded =>
    (Oblivious.forIn (fun _ _ => (Store.oblivious_add _ _ _ _).bind fun _ => .pure _) _).bind
      fun _ => .change fun _ => rfl

/-- A measured function is no reduced variable, so its name does not depend on a transcription. -/
theorem oblivious_addMeasure (function : Handle) (data : MeasureData α) (name : String) :
    Oblivious (addMeasure function data name) := by
  refine .query_bind (fun _ => rfl) fun m ref href => ?_
  -- only the name of a reduced variable is looked up in the transcription
  have hkind : ref.kind ≠ .reducedVariable := by
    obtain ⟨-, -, hkind⟩ := Model.ownedOf_eq_ok.1 href
    rintro he
    rw [he] at hkind
    simp at hkind
  refine (Oblivious.query fun m => m.parametersOf_unready ref).bind fun _ =>
    (Oblivious.forIn (fun _ _ => (oblivious_parameter _).bind fun _ => ?_) _).bind fun _ =>
      (Oblivious.mapM fun _ => .query fun _ => rfl).bind fun rows =>
        (Oblivious.forIn (fun _ _ => (Store.oblivious_add _ _ _ _).bind fun _ => .pure _) _).bind
          fun _ => ?_
  · exact .when (.throw _) (.pure _)
  · dsimp only
    split
    · exact (Oblivious.query fun m => m.nameOf_unready hkind).bind fun _ => .change fun _ => rfl
    · exact (Oblivious.pure _).bind fun _ => .change fun _ => rfl

theorem oblivious_deleteMeasure (h : Handle) :
    Oblivious (deleteMeasure h : Operation α Unit) := by
  have stale : Oblivious (modifyModel (·.markStale) : Operation α Unit) :=
    .modifyModel fun _ => rfl
  refine (Oblivious.query fun _ => rfl).bind fun _ => (Oblivious.query fun _ => rfl).bind fun μ =>
    (Oblivious.query fun _ => rfl).bind fun _ => (Oblivious.modifyModel fun _ => rfl).bind
      fun _ => ?_
  dsimp only
  split
  · exact (Oblivious.forIn (fun _ _ => (Store.oblivious_delete _ _).bind fun _ => .pure _) _).bind
      fun _ => stale
  · exact stale

end Modeling

/-! ## Requests -/

/-- Every request takes the same course whether the model is ready or not. -/
theorem Request.oblivious (request : Request α) : Oblivious request.operation := by
  cases request with
  | addParameter domain name supports count digits method =>
    exact (Modeling.oblivious_addParameter ..).bind fun _ => .pure _
  | addInfiniteVariable name parameters lower upper start integer =>
    exact (Oblivious.change fun m => m.unready_addInfiniteVariable ..).bind fun _ => .pure _
  | addFiniteVariable v => exact (Oblivious.change fun _ => rfl).bind fun _ => .pure _
  | addPointVariable variableRef values name =>
    exact (Modeling.oblivious_addPointVariable ..).bind fun _ => .pure _
  | addDerivative variableRef p name parameterName =>
    exact (Oblivious.change fun m => m.unready_addDerivative ..).bind fun _ => .pure _
  | deleteDerivative h => exact .change fun m => m.unready_deleteDerivative h
  | addMeasure function data shaped name =>
    exact (Modeling.oblivious_addMeasure ..).bind fun _ => .pure _
  | deleteMeasure h => exact Modeling.oblivious_deleteMeasure h
  | addConstraint terms sense rhs name restrictions =>
    exact (Oblivious.change fun m => m.unready_addConstraint ..).bind fun _ => .pure _
  | deleteConstraint h => exact .change fun m => m.unready_deleteConstraint h
  | markStale => exact .modifyModel fun _ => rfl
  | setSupports p values label force => exact Store.oblivious_set p values label force
  | addSupports p values label checked => exact (Store.oblivious_add ..).bind fun _ => .pure _
  | deleteSupports p label => exact Store.oblivious_delete p label
  | generateSupports p method count extra source =>
    exact (Store.oblivious_generateAndAdd ..).bind fun _ => .pure _
  | fillInSupports p count extend source => exact Store.oblivious_fillIn p count extend source
  | addGenerativeSupports p => exact Store.oblivious_addGenerative p
  | setGenerativeInfo p info => exact Store.oblivious_setInfo p info
  | setDerivativeMethod p method => exact Store.oblivious_setMethod p method
  | evaluate derivative => exact (Evaluation.oblivious_evaluate _).bind fun _ => .pure _
  | evaluateAll => exact Evaluation.oblivious_evaluateAll
  | restoreSupports => exact Transcription.oblivious_restoreSupports
  | prepareSupports => exact Transcription.oblivious_prepareSupports
  | build verbose => exact (Transcription.oblivious_build verbose).bind fun _ => .pure _

/-- The models that a request leads to differ in readiness only. -/
theorem Request.unready_perform (request : Request α) (e : Environment α) (m : Model α) :
    (request.perform ⟨e, m.unready⟩).unready = (request.perform ⟨e, m⟩).unready := by
  have hends := request.oblivious.runs (Workspace.alike_unready e m)
  unfold perform
  generalize request.operation ⟨e, m⟩ = r, request.operation ⟨e, m.unready⟩ = r' at hends ⊢
  cases hends with
  | ok _ h => exact h.model
  | error _ h => exact h.model

end Discretization
