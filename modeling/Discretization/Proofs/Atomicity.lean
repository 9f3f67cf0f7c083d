import Discretization.Proofs.Integrity
import Discretization.Proofs.Retention

/-!
# Additions Happen as a Whole

An addition looks at everything that can go wrong before it stores anything: references, names,
labels, and the values for all parameters. After that nothing fails. Storing a new value takes
derived supports away, which ends early at an undefined support only, and checked values are
defined. So an addition that fails leaves the model as it was.

## Main definitions

* `Parameter.Firm`: derived supports can be taken away;
* `Request.Guarded`: the requests that happen as a whole.

## Main results

* `Store.ends_add_of_firm`: adding defined values fails only because of a check;
* `succeeds_or_unchanged_of_requested`: a guarded request succeeds or leaves the model as it was.
-/

namespace Discretization

open Operation Workspace

variable {α : Type} [Scalar α]

/-! ## Firm parameters -/

namespace Parameter

/-- Derived supports have a label of their own and can be taken away. -/
structure Firm (q : Parameter α) : Prop where
  derivable : q.Derivable
  increasing : Increasing q.supports.values

variable [LawfulScalar α] {q : Parameter α}

omit [LawfulScalar α] in
theorem Firm.note (h : q.Firm) (equations : Bool) : { q with hasEquations := equations }.Firm :=
  ⟨h.derivable, h.increasing⟩

theorem Firm.grown (h : q.Firm) {values : List α} (hdef : ∀ x ∈ values, Scalar.Defined x)
    (label : Label) : (q.grown values label).Firm :=
  ⟨h.derivable, SupportMap.increasing_addAll h.increasing hdef label⟩

theorem Firm.without (h : q.Firm) (selectors : List Label) (internal : Bool) :
    (q.without selectors internal).Firm :=
  ⟨nofun, SupportMap.increasing_strip h.increasing selectors⟩

end Parameter

/-- All parameters are firm. -/
def Model.Firm (m : Model α) : Prop :=
  ∀ p q, m.parameter (.given p) = .ok q → q.Firm

theorem Model.firm_of_requested [LawfulScalar α] {m : Model α} (h : Requested m)
    (hdef : m.Defined) : m.Firm := fun p q hq =>
  ⟨Parameter.derivable_of_requested h p q hq,
    (Parameter.tidy_of_requested h p q hq).ordered (hdef p q hq)⟩

namespace Store

variable [LawfulScalar α] {w : Workspace α} {p : Ref} {q : Parameter α}

/-- Adding defined values to a firm parameter keeps it firm and fails only because of a check. -/
theorem ends_add_of_firm (hq : w.model.parameter (.given p) = .ok q) (hfirm : q.Firm)
    {values : List α} {label : Argument Label} {checked : Bool}
    (hdef : ∀ rounded, roundList q.digits values = .ok rounded →
      (checked = true → q.checkBounds rounded = .ok ()) → ∀ x ∈ rounded, Scalar.Defined x) :
    Ends (add p values label checked) w
      (fun _ w' => ∃ q', w'.model.parameter (.given p) = .ok q' ∧ q'.Firm)
      fun w' => w' = w ∧ ∀ l rounded, ¬ q.Admitted values label checked l rounded := by
  refine (ends_add_takes hq hfirm.derivable).mono ?_ ?_
  · rintro anyNew w' ⟨l, rounded, q', hadmitted, htakes, hq'⟩
    have hgrown := hfirm.grown (hdef rounded hadmitted.rounds hadmitted.inside) l
    refine ⟨q', hq', ?_⟩
    cases htakes with
    | known _ => exact hgrown
    | beside _ _ => exact hgrown.note false
    | displacing _ _ _ _ _ _ => exact (hgrown.without _ _).note false
  · rintro w' (⟨rfl, hnone⟩ | ⟨l, rounded, q', hadmitted, hchokes, -⟩)
    · exact ⟨rfl, hnone⟩
    · have hgrown := hfirm.grown (hdef rounded hadmitted.rounds hadmitted.inside) l
      exact absurd hchokes (Parameter.not_chokes hgrown.increasing)

/-- Values that are checked or defined are added as a whole, or nothing is changed. -/
theorem ends_add_defined (hfirm : w.model.Firm) {values : List α} {label : Argument Label}
    {checked : Bool} (hdef : checked = true ∨ ∀ x ∈ values, Scalar.Defined x) :
    Ends (add p values label checked) w (fun _ _ => True) fun w' => w' = w := by
  by_cases hlive : ∃ q, w.model.parameter (.given p) = .ok q
  · obtain ⟨q, hq⟩ := hlive
    refine (ends_add_of_firm hq (hfirm p q hq) fun rounded hr hbounds => ?_).mono
      (fun _ _ _ => trivial) fun _ h => h.1
    rcases hdef with hchecked | hdef
    · exact defined_of_checkBounds (hbounds hchecked)
    · exact defined_of_roundList hr hdef
  · refine (ends_query_bind_of_missing fun q hq => hlive ⟨q, hq⟩).mono (fun _ _ _ => trivial)
      fun _ h => h

/-- A loop that adds checked values does not fail. -/
theorem ends_forIn_add_of_firm (hfirm : w.model.Firm) {γ : Type} {pairs : List (Ref × γ)}
    (values : γ → List α) (label : Label)
    (h : ∀ pair ∈ pairs, label.isSelector = false ∧
      Modeling.Checked w.model pair.1 (values pair.2)) :
    Ends (forIn pairs PUnit.unit fun pair _ => do
        let _ ← add pair.1 (values pair.2) (.given label) false
        return .yield PUnit.unit) w
      (fun _ w' => w.Keeps w') fun _ => False := by
  refine (Ends.forIn (fun _ w' => w'.model.Firm ∧ w.Keeps w') ⟨hfirm, refl_of _ w⟩ ?_).mono
    (fun _ _ h => h.2) fun _ h => h
  rintro gone pair rest w₁ hpairs ⟨hfirm₁, hk₁⟩
  obtain ⟨hstorable, q, hq, hr, hbounds⟩ := h pair (hpairs ▸ by simp)
  obtain ⟨q₁, hq₁, hdigits, -, -⟩ := hk₁.parameter _ q hq
  rw [← hdigits] at hr
  rw [ends_bind]
  refine ((ends_add_of_firm hq₁ (hfirm₁ _ q₁ hq₁) fun rounded hr₁ _ => ?_).and
    ((moves_add ..).ends w₁)).mono ?_ ?_
  · obtain rfl : values pair.2 = rounded := Except.ok.inj (hr.symm.trans hr₁)
    exact defined_of_checkBounds hbounds
  · rintro _ w₂ ⟨⟨q₂, hq₂, hfirm₂⟩, ht⟩
    refine (ends_pure _).2 ⟨rfl, fun p' q' hq' => ?_, trans_of Keeps hk₁ ht.keeps⟩
    -- the parameter of the pair stays firm, and the others are as they were
    by_cases hp : p' = pair.1
    · subst hp
      obtain rfl : q₂ = q' := Except.ok.inj (hq₂.symm.trans hq')
      exact hfirm₂
    · exact hfirm₁ p' q' ((ht.model.parameter_of_ne (Model.index_ne hq₂ hq' hp)).1 hq')
  · -- the values passed the check before and do not change when they are rounded again
    rintro _ ⟨⟨-, hfails⟩, -⟩
    exact hfails label (values pair.2) ⟨rfl, hstorable, hr, nofun⟩

end Store

/-! ## Additions -/

theorem Model.Live.exists_nameOf {m : Model α} {ref : Ref} (h : m.Live ref)
    (hkind : ref.kind ≠ .reducedVariable) : ∃ name, m.nameOf ref = .ok name := by
  obtain ⟨hid, o, ho⟩ := Model.live_iff.1 h
  rw [Model.nameOf, if_neg hkind, Model.object_eq_ok.2 ⟨hid, ho⟩]
  exact ⟨o.name, rfl⟩

namespace Modeling

variable [LawfulScalar α] {w : Workspace α}

theorem ends_addPointVariable_whole (hfirm : w.model.Firm) {variableRef : Handle}
    {values : List α} {name : String} :
    Ends (addPointVariable variableRef values name) w
      (fun _ _ => ∃ ref variableName parameters,
        w.model.ownedOf [.infiniteVariable, .derivative] variableRef = .ok ref ∧
        w.model.indexed ref = .ok (variableName, parameters) ∧
        ∀ pair ∈ parameters.zip values, ∃ row,
          w.model.checkSupports pair.1 [pair.2] (.given .userDefined) = .ok row)
      fun w' => w' = w := by
  refine ends_addPointVariable_of rfl fun ref variableName parameters rounded href hindexed hlength
    hrounded => ?_
  -- all values were rounded and checked before the first is stored
  have hchecked : ∀ pair ∈ parameters.zip rounded.flatten, Checked w.model pair.1 [pair.2] :=
    fun _ => (List.forall₂_iff_zip.1 (checked_flatten hlength hrounded)).2
  refine (Store.ends_forIn_add_of_firm hfirm (fun x => [x]) .userDefined fun pair hpair =>
    ⟨rfl, hchecked pair hpair⟩).mono (fun _ _ _ _ => ?_) fun _ h => h.elim
  refine ⟨ref, variableName, parameters, href, hindexed, fun pair hpair => ?_⟩
  obtain ⟨row, -, hrow⟩ := exists_right_of_mem hrounded hpair
  exact ⟨row, hrow⟩

theorem ends_addMeasure_whole (hfirm : w.model.Firm) {function : Handle} {data : MeasureData α}
    {name : String} :
    Ends (addMeasure function data name) w
      (fun _ _ => ∀ pair ∈ data.parameters.zip data.supports, ∃ row,
        w.model.checkSupports pair.1 pair.2 (.given data.label) = .ok row)
      fun w' => w' = w := by
  refine ends_addMeasure_of rfl fun ref functionParameters rows href hfunction hmeasured hrows => ?_
  have hpass : ∀ pair ∈ data.parameters.zip data.supports, ∃ row,
      w.model.checkSupports pair.1 pair.2 (.given data.label) = .ok row := fun pair hpair => by
    obtain ⟨row, -, hrow⟩ := exists_right_of_mem hrows hpair
    exact ⟨row, hrow⟩
  cases hparameters : data.parameters with
  | nil =>
    -- without parameters nothing is stored before the name of the function is looked up
    exact (ends_pure _).2 ⟨fun _ _ => rfl, fun _ => hparameters ▸ hpass⟩
  | cons p rest =>
    -- with some, the function has parameters, so it is live and stays so
    obtain ⟨-, -, hkind⟩ := Model.ownedOf_eq_ok.1 href
    have hmeasured : p ∈ functionParameters := (hmeasured p (hparameters ▸ List.mem_cons_self)).2
    have hlive : w.model.Live ref := by
      rcases Model.live_of_parametersOf hkind hfunction with ⟨-, hnone⟩ | ⟨hlive, -⟩
      · rw [hnone] at hmeasured
        cases hmeasured
      · exact hlive
    have hnamed : ref.kind ≠ .reducedVariable := by
      rintro he
      simp [he] at hkind
    rw [← hparameters]
    refine (Store.ends_forIn_add_of_firm hfirm (fun row => row) data.label
      fun pair hpair => ?_).mono
      (fun _ w' hk => ⟨fun e he => ?_, fun _ => hpass⟩) fun _ h => h.elim
    · obtain ⟨row, -, hrow⟩ := exists_of_mem_zip hrows pair hpair
      exact ⟨storable_of_checkSupports hrow, checked_of_checkSupports hrow⟩
    · obtain ⟨name, hname⟩ := (hk.objects.live.2 hlive).exists_nameOf hnamed
      rw [hname] at he
      cases he

end Modeling

/-! ## Requests -/

/-- The requests that add to a model or take a derivative or a constraint from it. Values that are
added unchecked are defined. -/
def Request.Guarded : Request α → Prop
  | addInfiniteVariable _ _ _ _ _ _ | addFiniteVariable _ | addPointVariable _ _ _
  | addDerivative _ _ _ _ | addMeasure _ _ _ _ | addConstraint _ _ _ _ _ | deleteDerivative _
  | deleteConstraint _ | setSupports _ _ _ _ | generateSupports _ _ _ _ _ => True
  | addSupports _ values _ checked => checked = true ∨ ∀ x ∈ values, Scalar.Defined x
  | _ => False

/-- All values of a point variable, and all points of a measure, pass the checks of their
parameters. -/
def Request.Passes (m : Model α) : Request α → Prop
  | addPointVariable variableRef values _ => ∃ ref variableName parameters,
      m.ownedOf [.infiniteVariable, .derivative] variableRef = .ok ref ∧
      m.indexed ref = .ok (variableName, parameters) ∧
      ∀ pair ∈ parameters.zip values, ∃ row,
        m.checkSupports pair.1 [pair.2] (.given .userDefined) = .ok row
  | addMeasure _ data _ _ => ∀ pair ∈ data.parameters.zip data.supports, ∃ row,
      m.checkSupports pair.1 pair.2 (.given data.label) = .ok row
  | _ => True

theorem Request.ends_guarded [LawfulScalar α] {w : Workspace α} (hfirm : w.model.Firm)
    {request : Request α} (h : request.Guarded) :
    Ends request.operation w (fun _ _ => request.Passes w.model)
      fun w' => w'.model = w.model := by
  cases request with
  | addPointVariable variableRef values name =>
    rw [operation, ends_bind]
    exact (Modeling.ends_addPointVariable_whole hfirm).mono (fun _ _ h => (ends_pure _).2 h)
      fun _ h => h ▸ rfl
  | addMeasure function data shaped name =>
    rw [operation, ends_bind]
    exact (Modeling.ends_addMeasure_whole hfirm).mono (fun _ _ h => (ends_pure _).2 h)
      fun _ h => h ▸ rfl
  | setSupports p values label force =>
    exact Store.ends_set_by rfl fun _ _ _ _ _ _ _ _ _ _ _ => trivial
  | addSupports p values label checked =>
    rw [operation, ends_bind]
    exact (Store.ends_add_defined hfirm h).mono (fun _ _ _ => (ends_pure _).2 trivial)
      fun _ h => h ▸ rfl
  | generateSupports p method count extra source =>
    rw [operation, ends_bind]
    unfold Store.generateAndAdd
    -- without the parameter nothing is generated
    rw [ends_bind, ends_query]
    refine ⟨fun q hq => ?_, fun _ _ => rfl⟩
    rw [ends_bind, ends_onEnvironment]
    refine .of_forall (fun found e => ?_) fun _ => rfl
    exact (Store.ends_add_defined (w := { w with environment := e }) hfirm (.inl rfl)).mono
      (fun _ _ _ => (ends_pure _).2 trivial) fun _ h => h ▸ rfl
  | addInfiniteVariable | addFiniteVariable | addDerivative | addConstraint | deleteDerivative
  | deleteConstraint =>
    -- these only edit the objects of the model
    exact (ends_of_edits rfl w).mono (fun _ _ _ => trivial) fun _ h => h ▸ rfl
  | _ => exact h.elim

/-- An addition to a model without undefined supports, or a deletion of a derivative or a
constraint, either succeeds, and then all values passed the checks, or fails and leaves the model as
it was. -/
theorem succeeds_or_unchanged_of_requested [LawfulScalar α] {m : Model α} (h : Requested m)
    (hdef : m.Defined) {request : Request α} (hguarded : request.Guarded) (e : Environment α) :
    (∃ w', request.operation ⟨e, m⟩ = .ok () w' ∧ request.Passes m) ∨
      ∃ error w', request.operation ⟨e, m⟩ = .error error w' ∧ w'.model = m := by
  have hends := request.ends_guarded (w := ⟨e, m⟩) (Model.firm_of_requested h hdef) hguarded
  cases hrun : request.operation ⟨e, m⟩ with
  | ok _ w' => exact .inl ⟨w', rfl, hends.of_ok hrun⟩
  | error error w' => exact .inr ⟨error, w', rfl, hends.of_error hrun⟩

/-- A point with its second value outside the domain, where derived supports are in place for both
parameters. -/
theorem succeeds_or_unchanged_of_requested_point :
    let s : Ref := ⟨0, .parameter, 1⟩
    let t : Ref := ⟨0, .parameter, 2⟩
    let x : Ref := ⟨0, .infiniteVariable, 1⟩
    let m : Model Float := Request.replay { id := 0 }
      [.addParameter (.scalar (.interval 0 1)) "s" (some [0, 1]) 0 (some 12)
        (.orthogonalCollocation 3),
      .addParameter (.scalar (.interval 0 1)) "t" (some [0, 1]) 0 (some 12)
        (.orthogonalCollocation 3),
      .addInfiniteVariable "x" [.given s, .given t] none none .none false,
      .addGenerativeSupports s,
      .addGenerativeSupports t]
    let request : Request Float := .addPointVariable (.given x) [0.25, 2] "y"
    Requested m ∧ m.Defined ∧ request.Guarded ∧
      ∃ error w', request.operation ⟨{}, m⟩ = .error error w' ∧ w'.model = m := by
  intro s t x m request
  have hr : Requested m := .replay (.start 0 "model") _
  have hdef : m.Defined := Model.defined_of_allDefined (by decide +kernel)
  have hfails : Ends request.operation ⟨{}, m⟩ (fun _ _ => False) fun _ => True := by
    decide +kernel
  have hguarded : request.Guarded := trivial
  refine ⟨hr, hdef, hguarded, ?_⟩
  rcases succeeds_or_unchanged_of_requested hr hdef hguarded {} with ⟨w', hok, -⟩ | hunchanged
  · exact (hfails.of_ok hok).elim
  · exact hunchanged

/-- An undefined value that is added unchecked under the label of derived supports cannot be taken
away with them. The addition fails, and the derived supports are gone. -/
theorem not_unchanged_of_requested :
    ¬ ∀ (m : Model Float) (p : Ref) (values : List Float) (label : Argument Label) (checked : Bool)
      (e : Environment Float) (error : Error Float) (w' : Workspace Float),
      Requested m → m.Defined →
        (Request.addSupports p values label checked).operation ⟨e, m⟩ = .error error w' →
          w'.model = m := by
  intro hall
  let p : Ref := ⟨0, .parameter, 1⟩
  let m : Model Float := Request.replay { id := 0 }
    [.addParameter (.scalar (.interval 0 1)) "t" (some [0, 1]) 0 (some 12)
      (.orthogonalCollocation 3),
    .addGenerativeSupports p]
  let request : Request Float := .addSupports p [0 / 0] (.given .collocation) false
  have hr : Requested m := .replay (.start 0 "model") _
  have hdef : m.Defined := Model.defined_of_allDefined (by decide +kernel)
  obtain ⟨q, hq, hset⟩ := Except.exists_of_decide (x := m.parameter (.given p))
    (fun q => q.hasGenerative = true) (by decide +kernel)
  have hfails : Ends request.operation ⟨{}, m⟩ (fun _ _ => False) fun w' =>
      ((w'.model.parameter (.given p)).toOption.any fun q =>
        decide (q.hasGenerative = false)) = true := by decide +kernel
  cases hrun : request.operation ⟨{}, m⟩ with
  | ok _ w' => exact (hfails.of_ok hrun).elim
  | error error w' =>
    obtain ⟨q', hq', hgone⟩ := Except.exists_of_decide _ (hfails.of_error hrun)
    rw [hall m p _ _ _ {} error w' hr hdef hrun, hq] at hq'
    cases hq'
    rw [hset] at hgone
    cases hgone

end Discretization
