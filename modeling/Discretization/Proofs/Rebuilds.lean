import Discretization.Proofs.Histories

/-!
# Rebuilding a Ready Model

A transcription reads references, digits, equations and the support values of parameters that
something depends on. Two models that agree on these are transcribed alike: step by step the builder
does the same to the two transcriptions, which differ in their recorded labels only. Preparing a
ready model leaves all of that alone, so that a second build gives the same finite model.

## Main definitions

* `Building.Follows`: two programs do the same to transcriptions with different snapshots;
* `Building.Alike`: two models with the same grid, and snapshots with the same values on it.

## Main results

* `Building.Alike.follows_run`: models with the same grid are transcribed alike;
* `rebuild_eq`: a second build of a ready model changes nothing.
-/

namespace Discretization

/-- The transcription with the given supports recorded. -/
def Transcription.over {α κ : Type} (t : Transcription α κ) (snapshot : Snapshot α) :
    Transcription α κ :=
  { t with snapshot }

namespace Building

variable {α β γ : Type} {S S' : Snapshot α}

/-- Where two programs succeed on transcriptions that differ in the snapshot only, they give the
same, and the transcriptions still differ in the snapshot only. -/
structure Follows (S S' : Snapshot α) (x x' : Building α β) : Prop where
  run : ∀ t, t.snapshot = S → ∀ b s, x t = .ok b s → ∀ b' s', x' (t.over S') = .ok b' s' →
    b' = b ∧ s' = s.over S' ∧ s.snapshot = S

namespace Follows

theorem pure (b : β) : Follows S S' (Pure.pure b) (Pure.pure b) where
  run t ht b₁ s h b₁' s' h' := by
    cases h
    cases h'
    exact ⟨rfl, rfl, ht⟩

theorem throw (e e' : Error α) :
    Follows S S' (MonadExcept.throw e : Building α β) (MonadExcept.throw e') where
  run _ _ _ _ h := nomatch h

theorem bind {x x' : Building α β} {f f' : β → Building α γ} (hx : Follows S S' x x')
    (hf : ∀ b, Follows S S' (f b) (f' b)) : Follows S S' (x >>= f) (x' >>= f') where
  run t ht c s h c' s' h' := by
    obtain ⟨b, s₁, hb, hc⟩ := EStateM.bind_eq_ok.1 h
    obtain ⟨b', s₁', hb', hc'⟩ := EStateM.bind_eq_ok.1 h'
    obtain ⟨rfl, rfl, hs₁⟩ := hx.run t ht b s₁ hb b' s₁' hb'
    exact (hf b').run s₁ hs₁ c s hc c' s' hc'

/-- Two checks that agree on success, before two programs that may use it. -/
theorem check_bind {r r' : Except (Error α) β} {f f' : β → Building α γ}
    (hr : ∀ b, r' = .ok b → r = .ok b) (hf : ∀ b, r = .ok b → Follows S S' (f b) (f' b)) :
    Follows S S' (check r >>= f) (check r' >>= f') where
  run t ht c s h c' s' h' := by
    cases r' with
    | error e => cases h'
    | ok b =>
      cases hr b rfl
      exact (hf b rfl).run t ht c s h c' s' h'

theorem get_bind {f f' : Transcription α (Coordinate α) → Building α β}
    (hf : ∀ t, t.snapshot = S → Follows S S' (f t) (f' (t.over S'))) :
    Follows S S' (get >>= f) (get >>= f') where
  run t ht b s h b' s' h' := (hf t ht).run t ht b s h b' s' h'

theorem modify {f : Transcription α (Coordinate α) → Transcription α (Coordinate α)}
    (hf : ∀ t, f (t.over S') = (f t).over S') (hs : ∀ t, (f t).snapshot = t.snapshot) :
    Follows S S' (modify f) (modify f) where
  run t ht b s h b' s' h' := by
    cases h
    cases h'
    exact ⟨rfl, hf t, (hs t).trans ht⟩

theorem ite {c : Prop} [Decidable c] {x x' y y' : Building α β} (hx : Follows S S' x x')
    (hy : Follows S S' y y') : Follows S S' (if c then x else y) (if c then x' else y') := by
  split <;> assumption

theorem forIn {xs : List γ} {body body' : γ → PUnit → Building α (ForInStep PUnit)}
    (h : ∀ x ∈ xs, Follows S S' (body x ⟨⟩) (body' x ⟨⟩)) :
    Follows S S' (forIn xs PUnit.unit body) (forIn xs PUnit.unit body') := by
  induction xs with
  | nil => exact .pure _
  | cons x rest ih =>
    rw [List.forIn_cons, List.forIn_cons]
    refine (h x List.mem_cons_self).bind fun r => ?_
    cases r with
    | done b => exact .pure b
    | yield b => exact ih fun y hy => h y (List.mem_cons_of_mem x hy)

theorem mapM {xs : List γ} {f f' : γ → Building α β}
    (h : ∀ x ∈ xs, Follows S S' (f x) (f' x)) : Follows S S' (xs.mapM f) (xs.mapM f') := by
  induction xs with
  | nil =>
    rw [List.mapM_nil, List.mapM_nil]
    exact .pure _
  | cons x rest ih =>
    rw [List.mapM_cons, List.mapM_cons]
    exact (h x List.mem_cons_self).bind fun b =>
      (ih fun y hy => h y (List.mem_cons_of_mem x hy)).bind fun bs => .pure _

theorem foldlM {xs : List γ} {f f' : β → γ → Building α β}
    (h : ∀ b, ∀ x ∈ xs, Follows S S' (f b x) (f' b x)) (b : β) :
    Follows S S' (xs.foldlM f b) (xs.foldlM f' b) := by
  induction xs generalizing b with
  | nil => exact .pure b
  | cons x rest ih =>
    rw [List.foldlM_cons, List.foldlM_cons]
    exact (h b x List.mem_cons_self).bind fun b' =>
      ih (fun b y hy => h b y (List.mem_cons_of_mem x hy)) b'

end Follows

/-! ## Steps that do not read the model -/

theorem follows_variableEntry (ref : Ref) (parameters : List Ref) :
    Follows S S' (variableEntry ref parameters) (variableEntry ref parameters) := by
  refine .get_bind fun t _ => ?_
  dsimp only [Transcription.over]
  cases t.vars.get? ref with
  | some entry => exact .pure _
  | none =>
    refine Follows.bind ?_ fun _ => .pure _
    exact .modify (fun _ => rfl) fun _ => rfl

theorem follows_measureEntry (ref : Ref) (parameters : List Ref) :
    Follows S S' (measureEntry ref parameters) (measureEntry ref parameters) := by
  refine .get_bind fun t _ => ?_
  dsimp only [Transcription.over]
  cases t.measures.get? ref with
  | some entry => exact .pure _
  | none =>
    refine Follows.bind ?_ fun _ => .pure _
    exact .modify (fun _ => rfl) fun _ => rfl

theorem follows_appendVariable (v : FiniteVariable α) :
    Follows S S' (appendVariable v) (appendVariable v) := by
  refine .get_bind fun t _ => Follows.bind ?_ fun _ => .pure _
  exact .modify (fun _ => rfl) fun _ => rfl

variable [Scalar α]

theorem follows_appendConstraint (e : Expression α) (sense : Sense) (rhs : α) (name : String) :
    Follows S S' (appendConstraint e sense rhs name) (appendConstraint e sense rhs name) := by
  refine .get_bind fun t _ => Follows.bind ?_ fun _ => .pure _
  exact .modify (fun _ => rfl) fun _ => rfl

theorem follows_insert (entry : Entry (Coordinate α) β) (key : List (Coordinate α))
    (counterpart : β) :
    Follows S S' (insert entry key counterpart) (insert entry key counterpart) := by
  unfold insert
  split
  · exact .pure _
  · exact .throw _ _

omit [Scalar α] in
/-- The same keys are gone through where the snapshots have the same values. -/
theorem follows_keys {parameters : List Ref}
    (h : ∀ p ∈ parameters, ∀ v, S'.values p = .ok v → S.values p = .ok v) :
    Follows S S' (keys parameters) (keys parameters) := by
  refine .get_bind fun t ht => Follows.bind (.mapM fun p hp => ?_) fun axes => .pure _
  rw [ht]
  exact .check_bind (h p hp) fun v _ => .pure _

/-! ## Steps that read the model -/

/-- Two models that are transcribed alike over their snapshots. -/
structure Alike (m m' : Model α) (S S' : Snapshot α) : Prop where
  sound : m.Sound
  grid : m.SameGrid m'
  values : ∀ p, m.isUsed p = true → ∀ v, S'.values p = .ok v → S.values p = .ok v

variable {m m' : Model α}

omit [Scalar α] in
theorem finiteVariable_eq (h : m.SameObjects m') (ref : Ref) (name : String)
    (key : List (Coordinate α)) :
    finiteVariable m' ref name key = finiteVariable m ref name key := by
  by_cases hk : ref.kind = .parameter
  · -- a parameter gives no bounds, whatever its data
    simp only [finiteVariable, Model.find?, hk]
    cases m.parameters.get? ref.index <;> cases m'.parameters.get? ref.index <;> rfl
  · have hfind : m'.find? ref = m.find? ref := by
      simp only [Model.find?, h.infiniteVariables, h.finiteVariables, h.pointVariables,
        h.derivatives, h.measures, h.constraints]
      cases hkind : ref.kind with
      | parameter => exact absurd hkind hk
      | _ => rfl
    rw [finiteVariable, finiteVariable, hfind]

namespace Alike

/-- The keys of used parameters are the same. -/
theorem follows_keys (h : Alike m m' S S') {parameters : List Ref}
    (hp : ∀ p ∈ parameters, m.isUsed p = true) :
    Follows S S' (keys parameters) (keys parameters) :=
  Building.follows_keys fun p hmem => h.values p (hp p hmem)

theorem follows_variableAt (h : Alike m m' S S') (ref : Ref) (key : List (Coordinate α)) :
    Follows S S' (variableAt m ref key) (variableAt m' ref key) := by
  refine .check_bind (fun _ => h.grid.objects.indexed.1) fun (base, parameters) _ =>
    (follows_variableEntry _ _).bind fun entry => ?_
  split
  · exact .pure _
  · refine .get_bind fun t _ => Follows.bind ?_ fun position =>
      (follows_insert _ _ _).bind fun entry => Follows.bind ?_ fun _ => .pure _
    · rw [finiteVariable_eq h.grid.objects]
      exact follows_appendVariable _
    · exact .modify (fun _ => rfl) fun _ => rfl

theorem follows_singleVariable (h : Alike m m' S S') (ref : Ref) :
    Follows S S' (singleVariable m ref) (singleVariable m' ref) := by
  refine (follows_variableEntry _ _).bind fun entry => ?_
  -- what follows once the finite variable is known
  have finish : ∀ position : Nat, Follows S S' (do
      let entry ← insert entry [] position
      modify fun t => { t with vars := t.vars.set ref entry }
      return position : Building α Nat) (do
      let entry ← insert entry [] position
      modify fun t => { t with vars := t.vars.set ref entry }
      return position) := by
    refine fun _ => (follows_insert _ _ _).bind fun _ => Follows.bind ?_ fun _ => .pure _
    exact .modify (fun _ => rfl) fun _ => rfl
  split
  · exact .pure _
  · dsimp only
    split
    · exact .check_bind (fun _ => h.grid.objects.pointVariable.1) fun v _ =>
        (h.follows_variableAt _ _).bind fun _ => finish _
    · exact .check_bind (fun _ => h.grid.objects.finiteVariable.1) fun v _ =>
        (follows_appendVariable v).bind fun _ => finish _

omit [Scalar α] in
/-- Parameters have the same digits. -/
theorem digits_eq [Scalar α] (h : m.SameGrid m') {p : Ref} {digits : Int}
    (hd : (do return (← m'.parameter (.given p)).digits : Except (Error α) Int) = .ok digits) :
    (do return (← m.parameter (.given p)).digits : Except (Error α) Int) = .ok digits := by
  simp only [Except.bind_eq_ok, Except.pure_eq_ok] at hd ⊢
  obtain ⟨q', hq', rfl⟩ := hd
  obtain ⟨q, hq⟩ := h.objects.symm.parameter hq'
  obtain ⟨q₁, hq₁, hd⟩ := h.digits p q hq
  rw [hq'] at hq₁
  cases hq₁
  exact ⟨q, hq, hd.symm⟩

theorem roundedPoints_eq (h : m.SameGrid m') {data : MeasureData α} {points : List (List α)}
    (hp : roundedPoints m' data = .ok points) : roundedPoints m data = .ok points := by
  unfold roundedPoints at hp ⊢
  obtain ⟨digits, hd, hp⟩ := Except.bind_eq_ok.1 hp
  rw [Except.mapM_eq_ok] at hd
  exact Except.bind_eq_ok.2 ⟨digits, Except.mapM_eq_ok.2 (hd.imp fun _ _ => digits_eq h), hp⟩

theorem follows_reduce (h : Alike m m' S S') (function : Ref) (measured : List Ref)
    (points : List (List α)) :
    Follows S S' (reduce m function measured points) (reduce m' function measured points) := by
  unfold reduce
  split
  · refine .check_bind (fun _ => h.grid.objects.indexed.1) fun (name, parameters) hindexed => ?_
    dsimp only
    split
    · refine Follows.bind (.forIn fun point _ => .get_bind fun t _ => ?_) fun _ => .pure _
      change Follows S S' _ (if _ then _ else _)
      refine .ite (.pure _) ?_
      -- the keys are those of parameters that the variable depends on
      have hused : ∀ p ∈ parameters.filter (· ∉ measured), m.isUsed p = true := fun p hp =>
        Model.isUsed_of_indexed h.sound hindexed (List.mem_filter.1 hp).1
      refine (h.follows_keys hused).bind fun keys => Follows.bind (.mapM fun key _ => ?_)
        fun rows => Follows.bind (.foldlM (fun entry row _ => ?_) _) fun entry =>
          Follows.bind ?_ fun _ => .pure _
      · exact .check_bind (fun _ hb => hb) fun _ _ =>
          (h.follows_variableAt _ _).bind fun _ => .pure _
      · exact follows_insert _ _ _
      · exact .modify (fun _ => rfl) fun _ => rfl
    · exact .pure _
  · exact .pure _

/-- Induction on the rank of the object: a measure asks for expressions of its function only. -/
theorem follows_expression (h : Alike m m' S S') (ref : Ref) (point : Point (Coordinate α)) :
    Follows S S' (expression m ref point) (expression m' ref point) := by
  -- the function of a measure is older than the measure
  induction hrank : ref.rank using Nat.strongRecOn generalizing ref point with
  | ind rank ih =>
    unfold expression
    split
    · split
      · exact .pure _
      · exact .throw _ _
    · exact (h.follows_singleVariable ref).bind fun _ => .pure _
    · exact (h.follows_singleVariable ref).bind fun _ => .pure _
    · refine .check_bind (fun _ => h.grid.objects.indexed.1) fun found _ => ?_
      exact .check_bind (fun _ hb => hb) fun _ _ =>
        (h.follows_variableAt _ _).bind fun _ => .pure _
    · refine .check_bind (fun _ => h.grid.objects.indexed.1) fun found _ => ?_
      exact .check_bind (fun _ hb => hb) fun _ _ =>
        (h.follows_variableAt _ _).bind fun _ => .pure _
    · refine .check_bind (fun _ => h.grid.objects.functionParameters) fun parameters _ =>
        .check_bind (fun _ hb => hb) fun key _ => .check_bind (fun _ => h.grid.objects.measure.1)
          fun μ _ => (follows_measureEntry _ _).bind fun entry => ?_
      split
      · exact .pure _
      · refine .check_bind (fun _ hb => hb) fun weights _ =>
          .check_bind (fun _ => roundedPoints_eq h.grid) fun points _ => ?_
        split
        · rename_i hlt
          refine Follows.bind (.foldlM (fun sum row _ => ?_) _) fun result =>
            (follows_measureEntry _ _).bind fun entry => (follows_insert _ _ _).bind fun entry =>
              Follows.bind ?_ fun _ => (h.follows_reduce _ _ _).bind fun _ => .pure _
          · exact (ih _ (hrank ▸ hlt) _ _ rfl).bind fun _ => .pure _
          · exact .modify (fun _ => rfl) fun _ => rfl
        · exact .throw _ _
    · exact .throw _ _

theorem follows_combination (h : Alike m m' S S') (terms : List (α × Ref))
    (point : Point (Coordinate α)) :
    Follows S S' (combination m terms point) (combination m' terms point) :=
  .foldlM (fun _ _ _ => (h.follows_expression _ _).bind fun _ => .pure _) _

/-! ## Passes -/

theorem follows_vars (h : Alike m m' S S') : Follows S S' (vars m) (vars m') := by
  -- finite and point variables are gone through in the same way
  have single : ∀ kind, Follows S S' (forIn (m.liveRefs kind) PUnit.unit fun ref _ => do
      let _ ← singleVariable m ref
      return .yield PUnit.unit) (forIn (m.liveRefs kind) PUnit.unit fun ref _ => do
      let _ ← singleVariable m' ref
      return .yield PUnit.unit) :=
    fun kind => .forIn fun ref _ => (h.follows_singleVariable ref).bind fun _ => .pure _
  unfold vars
  simp only [h.grid.objects.liveRefs]
  refine (single .finiteVariable).bind fun _ => Follows.bind (.forIn fun ref _ => ?_) fun _ =>
    (single .pointVariable).bind fun _ => .pure _
  refine .check_bind (fun _ => h.grid.objects.indexed.1) fun (name, parameters) hindexed =>
    (follows_variableEntry _ _).bind fun _ => ?_
  have hused : ∀ p ∈ parameters, m.isUsed p = true := fun p hp =>
    Model.isUsed_of_indexed h.sound hindexed hp
  exact (h.follows_keys hused).bind fun keys =>
    Follows.bind (.forIn fun key _ => (h.follows_variableAt ref key).bind fun _ => .pure _)
      fun _ => .pure _

theorem follows_measures (h : Alike m m' S S') : Follows S S' (measures m) (measures m') := by
  unfold measures
  rw [h.grid.objects.liveRefs]
  refine Follows.bind (.forIn fun ref href => ?_) fun _ => .pure _
  refine .check_bind (fun _ => h.grid.objects.functionParameters) fun parameters hparameters =>
    (follows_measureEntry _ _).bind fun _ => ?_
  have hk : ref.kind ≠ .parameter := by
    rw [(Model.mem_liveRefs.1 href).2.1]
    decide
  have hkeys := h.follows_keys (Model.isUsed_of_functionParameters h.sound hparameters hk)
  exact hkeys.bind fun keys =>
    Follows.bind (.forIn fun key _ => (h.follows_expression ref _).bind fun _ => .pure _)
      fun _ => .pure _

theorem follows_constraintAt (h : Alike m m' S S') (ref : Ref) (c : Constraint α)
    (parameters : List Ref) (key : List (Coordinate α)) :
    Follows S S' (constraintAt m ref c parameters key) (constraintAt m' ref c parameters key) := by
  refine .get_bind fun t _ => ?_
  refine .ite ?_ (.pure _)
  refine (h.follows_combination _ _).bind fun e => .get_bind fun t' _ =>
    (follows_appendConstraint _ _ _ _).bind fun position =>
      (follows_insert _ _ _).bind fun entry => ?_
  exact .modify (fun _ => rfl) fun _ => rfl

theorem follows_constraints (h : Alike m m' S S') :
    Follows S S' (constraints m) (constraints m') := by
  unfold constraints
  rw [h.grid.objects.liveRefs]
  refine Follows.bind (.forIn fun ref _ => ?_) fun _ => .pure _
  refine .check_bind (fun _ => h.grid.objects.constraint.1) fun c hc =>
    .check_bind (fun _ => h.grid.objects.parametersOf hc) fun parameters hparameters =>
      Follows.bind (.modify (fun _ => rfl) fun _ => rfl) fun _ => ?_
  exact (h.follows_keys (Model.isUsed_of_parametersOf h.sound hc hparameters)).bind fun keys =>
    Follows.bind (.forIn fun key _ => (h.follows_constraintAt ref c parameters key).bind
      fun _ => .pure _) fun _ => .pure _

theorem follows_equationAt (h : Alike m m' S S') (ref : Ref) (d : Derivative) (e : Equation α)
    (others : List Ref) (rest : List (Coordinate α)) :
    Follows S S' (equationAt m ref d e others rest) (equationAt m' ref d e others rest) := by
  refine .get_bind fun t _ => .check_bind (fun _ hb => hb) fun key _ => ?_
  refine .ite ?_ (.pure _)
  refine Follows.bind
    (.foldlM (fun sum term _ => (h.follows_expression _ _).bind fun _ => .pure _) _)
    fun e => .get_bind fun t' _ => (follows_appendConstraint _ _ _ _).bind fun position =>
      (follows_insert _ _ _).bind fun entry => ?_
  exact .modify (fun _ => rfl) fun _ => rfl

theorem follows_evaluations (h : Alike m m' S S') :
    Follows S S' (evaluations m) (evaluations m') := by
  unfold evaluations
  rw [h.grid.objects.liveRefs]
  refine Follows.bind (.forIn fun ref href => ?_) fun _ => .pure _
  refine .check_bind (fun _ => h.grid.objects.derivative.1) fun d hd => ?_
  rw [h.grid.equations ref href]
  cases m.equations? ref.index with
  | none => exact .throw _ _
  | some equations =>
    refine Follows.bind (.modify (fun _ => rfl) fun _ => rfl) fun _ =>
      Follows.bind (.forIn fun e _ => ?_) fun _ => .pure _
    -- a derivative is found with its parameters like a variable
    have hused : ∀ p ∈ d.parameters.filter (· ≠ d.parameter), m.isUsed p = true := by
      intro p hp
      obtain ⟨hid, hk, hfound⟩ := Model.derivative_eq_ok.1 hd
      have hi : m.indexed ref = .ok (d.name, d.parameters) :=
        Model.indexed_eq_ok.2 ⟨hid, .inr ⟨d, hk, hfound, rfl, rfl⟩⟩
      exact Model.isUsed_of_indexed h.sound hi (List.mem_filter.1 hp).1
    exact (h.follows_keys hused).bind fun keys =>
      Follows.bind (.forIn fun key _ => (h.follows_equationAt ref d e _ key).bind fun _ => .pure _)
        fun _ => .pure _

/-- Models with the same grid are transcribed alike. -/
theorem follows_run (h : Alike m m' S S') : Follows S S' (run m) (run m') :=
  h.follows_vars.bind fun _ => h.follows_measures.bind fun _ => h.follows_constraints.bind fun _ =>
    h.follows_evaluations

end Alike

end Building

/-! ## The second build -/

/-- The transcriptions of models with the same grid differ in the recorded labels only. -/
theorem Model.transcribe_eq_over [Scalar α] {built m : Model α} (hs : built.Sound)
    (hg : built.SameGrid m) {verbose : Bool} {t t' : Transcription α}
    (h : built.transcribe verbose = .ok t) (h' : m.transcribe verbose = .ok t') :
    t' = t.over t'.snapshot := by
  obtain ⟨-, hsnapshot⟩ := grows_of_transcribe h'
  obtain ⟨s, hrun, rfl⟩ := transcribe_eq_ok.1 h
  obtain ⟨s', hrun', rfl⟩ := transcribe_eq_ok.1 h'
  -- snapshots agree in the values of the parameters that something depends on
  have halike : Building.Alike built m built.snapshot m.snapshot := by
    refine ⟨hs, hg, fun p hused v hv => ?_⟩
    obtain ⟨q, hq, rfl⟩ := values_snapshot_eq_ok.1 hv
    obtain ⟨q₀, hq₀⟩ := hg.objects.symm.parameter hq
    rw [values_snapshot hq₀, (hg.used p q₀ q hused hq₀ hq).1]
  have hblank : m.blank verbose = (built.blank verbose).over m.snapshot := by
    rw [blank, blank, hg.objects.name]
    rfl
  rw [hblank] at hrun'
  obtain ⟨-, rfl, -⟩ := halike.follows_run.run _ rfl () s hrun () s' hrun'
  rfl

/-- A second build of a ready model changes nothing: it gives the finite model, the entries and the
reduced variables that the first one gave, over the supports of the model as it is now. A parameter
that the first one had left without supports might get some from the second, so every build is one
for which missing supports could be generated. -/
theorem rebuild_eq [Scalar α] [LawfulScalar α] {m : Model α} (h : Reachable m) (hdef : m.Defined)
    (hready : m.ready = true) (ha : m.LabelsApart) {t t' : Transcription α}
    (ht : m.transcription = some t) {e : Environment α} {verbose : Option Bool} {w' : Workspace α}
    (hbuild : Transcription.build verbose ⟨e, m⟩ = .ok t' w') (hverbose : t'.verbose = t.verbose) :
    t' = t.over t'.snapshot := by
  obtain ⟨built, t₀, ht₀, htranscribed, hsound, hprepared, hgrid⟩ :=
    h.inv.ready hdef.gridDefined hready
  obtain rfl : t = t₀ := Option.some.inj (ht.symm.trans ht₀)
  obtain ⟨honGrid, hstocked⟩ := hprepared.stored (hgrid.labelsApart hsound ha)
  have hstocked := hstocked trivial
  -- preparing again leaves the grid, so that a model with the same grid is transcribed
  have hends : Ends (Transcription.build verbose) ⟨e, m⟩
      (fun t' _ => ∃ m₁ v, built.SameGrid m₁ ∧ m₁.transcribe v = .ok t') fun _ => True := by
    unfold Transcription.build
    rw [ends_bind, ends_get]
    dsimp only
    rw [ends_bind]
    refine (Transcription.settled_prepareSupports ⟨h.inv, hgrid⟩ hprepared honGrid hstocked).mono ?_
      fun _ h' => h'
    rintro _ w₁ hsettled
    rw [ends_bind, Operation.ends_model, ends_bind, Operation.ends_check]
    refine ⟨fun t₁ ht₁ => ?_, fun _ _ => trivial⟩
    rw [ends_bind, Operation.ends_modifyModel, ends_bind, Operation.ends_onEnvironment]
    exact .of_forall (fun _ _ => (ends_pure _).2 ⟨w₁.model, _, hsettled.grid, ht₁⟩)
      fun _ => trivial
  obtain ⟨m₁, v, hgrid₁, ht₁⟩ := hends.of_ok hbuild
  obtain ⟨hv, -⟩ := Model.grows_of_transcribe ht₁
  rw [← hv, hverbose] at ht₁
  exact Model.transcribe_eq_over hsound hgrid₁ htranscribed ht₁

/-- No parameter asks for derived supports. -/
def Model.isUnderived (m : Model α) : Bool :=
  m.parameters.objects.all (·.info matches .none)

/-- Where no supports are derived, labels are apart. -/
theorem Model.labelsApart_of_underived {m : Model α} (h : m.isUnderived = true) :
    m.LabelsApart := by
  have hapart : ∀ p q label, m.parameter (.given p) = .ok q → q.Apart label := by
    intro p q label hq basis derived hinfo
    rw [isUnderived, List.all_eq_true] at h
    have hnone := h q (Table.mem_objects_of_get? (parameter_eq_ok.1 hq).2.2)
    rw [hinfo] at hnone
    cases hnone
  exact ⟨fun _ _ _ _ _ _ _ _ q hq => hapart _ q _ hq, fun _ _ _ _ _ q hq => hapart _ q _ hq⟩

/-- A measure and a point variable over an interval, built again after an existing support got one
more label and the derivative was evaluated again. -/
theorem rebuild_eq_relabelled :
    let p : Ref := ⟨0, .parameter, 1⟩
    let x : Ref := ⟨0, .infiniteVariable, 1⟩
    let data : MeasureData ℚ := ⟨[p], [1 / 2, 1 / 2], [[0, 1]], [], .uniformGrid, .unit, "mean"⟩
    let m : Model ℚ := Request.replay { id := 0 }
      [.addParameter (.scalar (.interval 0 1)) "t" (some [0, 1 / 2, 1]) 0 (some 6)
        (.finiteDifference .backward),
      .addInfiniteVariable "x" [.given p] none none .none false,
      .addDerivative (.given x) p "dx" (.ok "t"),
      .addMeasure (.given x) data ⟨rfl, by decide⟩ "mean",
      .addPointVariable (.given x) [1 / 2] "half",
      .build none,
      .addSupports p [1] (.given .userDefined) true,
      .evaluateAll]
    Reachable m ∧ m.Defined ∧ m.ready = true ∧ m.LabelsApart ∧ ∃ t t' w', m.transcription = some t ∧
      Transcription.build none ⟨{}, m⟩ = .ok t' w' ∧ t'.verbose = t.verbose ∧
      t' = t.over t'.snapshot := by
  intro p x data m
  have hr : Reachable m := .replay (.start 0 "model") _
  have hdef : m.Defined := .of_exact m
  have hready : m.ready = true := by decide +kernel
  have ha : m.LabelsApart := Model.labelsApart_of_underived (by decide +kernel)
  obtain ⟨t, ht⟩ : ∃ t, m.transcription = some t :=
    Option.isSome_iff_exists.1 (by decide +kernel)
  have hbuild : Ends (Transcription.build none) ⟨{}, m⟩
      (fun t' _ => some t'.verbose = m.transcription.map (·.verbose)) fun _ => False := by
    decide +kernel
  obtain ⟨t', w', hb, hverbose⟩ := hbuild.exists_ok
  rw [ht] at hverbose
  have hverbose := Option.some.inj hverbose
  exact ⟨hr, hdef, hready, ha, t, t', w', ht, hb, hverbose,
    rebuild_eq hr hdef hready ha ht hb hverbose⟩

end Discretization
