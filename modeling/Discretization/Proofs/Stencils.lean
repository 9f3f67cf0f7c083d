import Discretization.Proofs.Steps
import Discretization.Proofs.StoredEquations

/-!
# Stored Equations and the Flag of Them

Each parameter has one flag for the stored equations of all derivatives with respect to it. The flag
and the table of equations change together: whatever changes the values or the method of a parameter
drops both, an evaluation sets both, and a derivative that is deleted takes the flag along only if
no other one is left with equations. So the flag says exactly whether equations are stored, and
stored equations are about the supports as they are; those of a finite difference are its stencil
over them.

## Main definitions

* `Technique.Yields`: the equations of a finite difference, term by term;
* `Parameter.Carries`: equations are about the current supports of a parameter;
* `Model.Consistent`: the flags of a model agree with its equations, and all of these are carried.

## Main results

* `Model.Consistent.keep`, `Model.Consistent.drop`: a change around one parameter keeps a model
  consistent if it leaves values, method and equations alone or drops equations and flag;
* `consistent_of_requested`: all models that come about by requests are consistent.
-/

namespace Discretization

variable {α : Type} [Scalar α]

/-! ## Stencils -/

/-- The equations of a finite difference over values, term by term: width times derivative, minus
the variable at the upper value, plus the variable at the lower one. Backward and forward, an
equation spans two neighbours and is about the upper or the lower one; centrally it spans three and
is about the middle. -/
def Technique.Yields (technique : Technique) (d x : Ref) (values : List α)
    (equations : List (Equation α)) : Prop :=
  match technique with
  | .backward => equations.length + 1 = values.length ∧
    ∀ k lower upper, values[k]? = some lower → values[k + 1]? = some upper →
      equations[k]? = some
        { derivative := d, head := ⟨upper - lower, d, upper⟩,
          rest := [⟨-1, x, upper⟩, ⟨1, x, lower⟩] }
  | .forward => equations.length + 1 = values.length ∧
    ∀ k lower upper, values[k]? = some lower → values[k + 1]? = some upper →
      equations[k]? = some
        { derivative := d, head := ⟨upper - lower, d, lower⟩,
          rest := [⟨-1, x, upper⟩, ⟨1, x, lower⟩] }
  | .central => equations.length + 2 = values.length ∧
    ∀ k lower middle upper, values[k]? = some lower → values[k + 1]? = some middle →
      values[k + 2]? = some upper → equations[k]? = some
        { derivative := d, head := ⟨upper - lower, d, middle⟩,
          rest := [⟨-1, x, upper⟩, ⟨1, x, lower⟩] }

omit [Scalar α] in
/-- A value and the next one are a pair of neighbours. -/
theorem getElem?_zip_tail {values : List α} {k : Nat} {lower upper : α}
    (hlower : values[k]? = some lower) (hupper : values[k + 1]? = some upper) :
    (values.zip values.tail)[k]? = some (lower, upper) :=
  List.getElem?_zip_eq_some.2 ⟨hlower, by rwa [List.getElem?_tail]⟩

/-- The equations of a stencil that are computed are those of its technique. -/
theorem Technique.yields_of_differences {technique : Technique} {d x : Ref} {values : List α}
    {equations : List (Equation α)}
    (h : Equation.differences d x values technique = .ok equations) :
    technique.Yields d x values equations := by
  rw [Equation.differences] at h
  split at h
  · cases h
  rename_i hneeded
  cases h
  cases technique with
  | backward =>
    refine ⟨?_, fun k lower upper hlower hupper => ?_⟩
    · simp only [needed, List.length_map, List.length_zip, List.length_tail] at hneeded ⊢
      omega
    · rw [List.getElem?_map, getElem?_zip_tail hlower hupper]
      rfl
  | forward =>
    refine ⟨?_, fun k lower upper hlower hupper => ?_⟩
    · simp only [needed, List.length_map, List.length_zip, List.length_tail] at hneeded ⊢
      omega
    · rw [List.getElem?_map, getElem?_zip_tail hlower hupper]
      rfl
  | central =>
    refine ⟨?_, fun k lower middle upper hlower hmiddle hupper => ?_⟩
    · simp only [needed, List.length_map, List.length_zip, List.length_tail] at hneeded ⊢
      omega
    · -- behind a value comes the pair that begins with the next one
      have hpair : (values.zip values.tail).tail[k]? = some (middle, upper) := by
        rw [List.getElem?_tail, getElem?_zip_tail hmiddle hupper]
      have htriple := List.getElem?_zip_eq_some (z := (lower, middle, upper)).2 ⟨hlower, hpair⟩
      rw [List.getElem?_map, htriple]
      rfl

/-! ## Consistent models -/

/-- Equations are about the current supports of a parameter, whose flag is set; those of a finite
difference are its stencil. -/
structure Parameter.Carries (q : Parameter α) (derivative variableRef : Ref)
    (equations : List (Equation α)) : Prop where
  flag : q.hasEquations = true
  fits : ∀ e ∈ equations, e.FitsOn derivative variableRef q.supports.values
  stencil : ∀ technique, q.method = .finiteDifference technique →
    Equation.differences derivative variableRef q.supports.values technique = .ok equations

/-- Another flag beside the same values and the same method makes no difference to equations. -/
theorem Parameter.Carries.congr {q q' : Parameter α} {derivative variableRef : Ref}
    {equations : List (Equation α)} (h : q.Carries derivative variableRef equations)
    (hvalues : q'.supports.values = q.supports.values) (hmethod : q'.method = q.method)
    (hflag : q'.hasEquations = true) : q'.Carries derivative variableRef equations where
  flag := hflag
  fits := by rw [hvalues]; exact h.fits
  stencil technique ht := by
    rw [hvalues]
    exact h.stencil technique (hmethod.symm.trans ht)

namespace Model

variable {m m' : Model α} {p : Ref} {q q' : Parameter α}

/-- Some live derivative with respect to a parameter has stored equations. -/
def Evaluated (m : Model α) (p : Ref) : Prop :=
  ∃ i d, m.derivatives.get? i = some d ∧ d.parameter = p ∧ (m.equations? i).isSome

/-- All stored equations are those of live derivatives whose parameters carry them, and a flag is
set only where equations are stored. -/
structure Consistent (m : Model α) : Prop where
  derivatives : m.derivatives.WellFormed
  stored : ∀ i equations, m.equations? i = some equations → ∃ d q,
    m.derivatives.get? i = some d ∧ m.parameter (.given d.parameter) = .ok q ∧
      q.Carries ⟨m.id, .derivative, i⟩ d.ref equations
  flagged : ∀ p q, m.parameter (.given p) = .ok q → q.hasEquations = true → m.Evaluated p

namespace Consistent

theorem relates (h : m.Consistent) : m.Relates Parameter.Carries := ⟨h.derivatives, h.stored⟩

/-- A parameter whose flag is not set has no stored equations. -/
theorem unevaluated (h : m.Consistent) (hq : m.parameter (.given p) = .ok q)
    (hflag : q.hasEquations = false) : m.Unevaluated p := by
  refine h.relates.unevaluated hq fun _ _ _ hcarries => ?_
  have hset := hcarries.flag
  rw [hflag] at hset
  cases hset

/-- A change around one parameter keeps a model consistent if parameters still carry what is stored
about them, and the flag of that parameter is set only if that is something. -/
theorem alter (h : m.Consistent) (ht : m.Alters p m') (hq' : m'.parameter (.given p) = .ok q')
    (hrelates : m'.Relates Parameter.Carries)
    (hflagged : q'.hasEquations = true → m'.Evaluated p) : m'.Consistent where
  derivatives := hrelates.derivatives
  stored := hrelates.stored
  flagged p₁ q₁ hq₁ hset := by
    by_cases hp : p₁ = p
    · subst hp
      rw [hq'] at hq₁
      cases hq₁
      exact hflagged hset
    · have hold := (ht.parameter_of_ne (index_ne hq' hq₁ hp)).1 hq₁
      obtain ⟨i, d, hd, hdp, hstored⟩ := h.flagged p₁ q₁ hold hset
      refine ⟨i, d, by rwa [ht.objects.derivatives], hdp, ?_⟩
      rwa [ht.equations i fun d' hd' hindex => ?_]
      exact hp (hdp.symm.trans ((mem_derivativesOf h.derivatives hd).1 ⟨d', hd', hindex⟩))

/-- A change that leaves the values, the method, the flag and the equations of a parameter alone. -/
theorem keep (h : m.Consistent) (ht : m.Alters p m') (hq : m.parameter (.given p) = .ok q)
    (hq' : m'.parameter (.given p) = .ok q') (hvalues : q'.supports.values = q.supports.values)
    (hmethod : q'.method = q.method) (hflag : q'.hasEquations = q.hasEquations)
    (he : ∀ i, m'.equations? i = m.equations? i) : m'.Consistent := by
  refine h.alter ht hq' (h.relates.alter_of_imp ht hq hq' he fun _ _ _ hcarries =>
    hcarries.congr hvalues hmethod (hflag.trans hcarries.flag)) fun hset => ?_
  obtain ⟨i, d, hd, hdp, hstored⟩ := h.flagged p q hq (hflag.symm.trans hset)
  exact ⟨i, d, by rwa [ht.objects.derivatives], hdp, by rwa [he]⟩

/-- A change after which a parameter has neither equations nor the flag. -/
theorem drop (h : m.Consistent) (ht : m.Alters p m') (hq : m.parameter (.given p) = .ok q)
    (hq' : m'.parameter (.given p) = .ok q') (hflag : q'.hasEquations = false)
    (hu : m'.Unevaluated p) : m'.Consistent := by
  refine h.alter ht hq' (h.relates.alter_of_unevaluated ht hq hu) fun hset => ?_
  rw [hflag] at hset
  cases hset

theorem markStale (h : m.Consistent) : m.markStale.Consistent :=
  ⟨h.derivatives, h.stored, h.flagged⟩

theorem markStaleIfUsed (h : m.Consistent) (p : Ref) : (m.markStaleIfUsed p).Consistent := by
  rw [Model.markStaleIfUsed]
  split
  · exact h.markStale
  · exact h

/-- A parameter whose flag is not set can change as long as it stays unset. -/
theorem modifyParameter (h : m.Consistent) (hq : m.parameter (.given p) = .ok q)
    (hflag : q.hasEquations = false) {f : Parameter α → Parameter α}
    (hf : ∀ q, (f q).digits = q.digits ∧ (f q).domain = q.domain ∧
      (f q).hasEquations = q.hasEquations) : (m.modifyParameter p f).Consistent :=
  h.drop (alters_modifyParameter m p f fun q => ⟨(hf q).1, (hf q).2.1⟩) hq
    (parameter_modifyParameter hq f) ((hf q).2.2.trans hflag)
    ((h.unevaluated hq hflag).of_objects (sameObjects_modifyParameter m p f) fun _ => rfl)

end Consistent

end Model

/-! ## Operations on supports keep models consistent -/

namespace Store

open Operation Workspace

variable {w w' : Workspace α} {p : Ref} {q : Parameter α}

/-- A consistent model stays consistent. -/
def KeepsConsistent (w w' : Workspace α) : Prop := w.model.Consistent → w'.model.Consistent

instance : IsPreorder (Workspace α) KeepsConsistent where
  refl _ h := h
  trans _ _ _ h h' := h' ∘ h

theorem moves_of_consistent {β : Type} {op : Operation α β}
    (h : ∀ w : Workspace α, w.model.Consistent →
      Ends op w (fun _ w' => w'.model.Consistent) fun w' => w'.model.Consistent) :
    Moves KeepsConsistent op :=
  .of_keeps h

theorem Cleared.consistent (h : Cleared p q w w') (hc : w.model.Consistent)
    (hq : w.model.parameter (.given p) = .ok q) : w'.model.Consistent :=
  hc.drop h.touches.model.toAlters hq h.parameter rfl (h.unevaluated fun hflag =>
    hc.unevaluated hq hflag)

/-- Deleting drops the equations together with the flag before it changes any support. -/
theorem consistent_delete (hc : w.model.Consistent) (p : Ref) (label : Label) :
    Ends (delete p label) w
      (fun _ w' => w'.model.Consistent ∧ ∀ q, w'.model.parameter (.given p) = .ok q →
        q.hasEquations = false)
      fun w' => w'.model.Consistent := by
  by_cases hl : label = .all
  · subst hl
    refine ends_delete_all hc fun q w₁ hq hw₁ => ?_
    let f (q : Parameter α) : Parameter α :=
      { q with supports := .empty, hasGenerative := false, hasInternal := false }
    have hq₂ := Model.parameter_modifyParameter hw₁.parameter f
    refine ⟨((hw₁.consistent hc hq).modifyParameter (f := f) hw₁.parameter rfl
      fun _ => ⟨rfl, rfl, rfl⟩).markStaleIfUsed p, fun q' hq' => ?_⟩
    rw [Model.parameter_markStaleIfUsed, hq₂] at hq'
    cases hq'
    rfl
  · refine ends_delete hl (fun _ _ => hc) fun q w₁ hq hw₁ => ?_
    have hc₁ := hw₁.consistent hc hq
    refine ⟨fun _ _ => hc₁, fun derived _ supports failed _ => ?_⟩
    let f (q : Parameter α) : Parameter α := { q with supports, hasGenerative := false }
    let g (q : Parameter α) : Parameter α :=
      { q with hasInternal := q.hasInternal && supports.hasInternal }
    have hq₂ := Model.parameter_modifyParameter hw₁.parameter f
    have hq₃ := Model.parameter_modifyParameter hq₂ g
    have hc₂ := hc₁.modifyParameter (f := f) hw₁.parameter rfl fun _ => ⟨rfl, rfl, rfl⟩
    have hc₃ := hc₂.modifyParameter (f := g) hq₂ rfl fun _ => ⟨rfl, rfl, rfl⟩
    -- a failure halfway leaves labels behind, but no equations
    refine ⟨fun _ => hc₂, fun _ => ⟨hc₃.markStaleIfUsed p, fun q' hq' => ?_⟩⟩
    rw [Model.parameter_markStaleIfUsed, hq₃] at hq'
    cases hq'
    rfl

theorem consistent_resetGenerative (hc : w.model.Consistent)
    (hq : w.model.parameter (.given p) = .ok q) :
    Ends (resetGenerative p) w
      (fun _ w' => w'.model.Consistent ∧ (q.hasEquations = false →
        ∀ q', w'.model.parameter (.given p) = .ok q' → q'.hasEquations = false))
      fun w' => w'.model.Consistent := by
  simp only [resetGenerative, ends_bind, ends_query, hq, reduceCtorEq, false_implies, implies_true,
    and_true, Except.ok.injEq, forall_eq']
  rw [ends_ite]
  refine ⟨fun _ => ?_, fun _ => (ends_pure _).2 ⟨hc, fun hflag q' hq' => ?_⟩⟩
  · rw [ends_bind, ends_check]
    exact ⟨fun derived _ => (consistent_delete hc p derived).mono (fun _ _ h => ⟨h.1, fun _ => h.2⟩)
      fun _ h => h, fun _ _ => hc⟩
  · rw [hq] at hq'
    cases hq'
    exact hflag

/-- After the supports of a parameter were replaced, the equations built from the old ones go. -/
theorem consistent_refresh (hc : w.model.Consistent) (hq : w.model.parameter (.given p) = .ok q)
    {f : Parameter α → Parameter α} (hf : ∀ q, (f q).digits = q.digits ∧ (f q).domain = q.domain ∧
      (f q).hasEquations = q.hasEquations)
    (hcleared : Cleared p (f q) { w with model := w.model.modifyParameter p f } w') :
    w'.model.Consistent := by
  have ht₁ := Model.alters_modifyParameter w.model p f fun q => ⟨(hf q).1, (hf q).2.1⟩
  refine hc.drop (ht₁.trans hcleared.touches.model.toAlters) hq hcleared.parameter rfl ?_
  exact hcleared.unevaluated fun hunset =>
    (hc.unevaluated hq ((hf q).2.2.symm.trans hunset)).of_objects ht₁.objects fun _ => rfl

/-- New values take the equations away, and where no value is new, none changes. -/
theorem consistent_add (p : Ref) (values : List α) (label : Argument Label) (checked : Bool) :
    Moves KeepsConsistent (add p values label checked) := by
  refine moves_of_consistent fun w hc => ends_add_of hc fun q l rounded hq _ _ _ _ => ?_
  let f (q₁ : Parameter α) : Parameter α :=
    { q₁ with
      supports := (q.supports.addAll rounded l).2, hasInternal := q₁.hasInternal || l.internal }
  refine ⟨fun hold => ?_, fun _ w₂ hcleared => ?_⟩
  · exact hc.keep (Model.alters_modifyParameter w.model p f fun _ => ⟨rfl, rfl⟩) hq
      (Model.parameter_modifyParameter hq f) (SupportMap.values_addAll_of_not_new hold) rfl rfl
      fun _ => rfl
  · have hc₂ := consistent_refresh hc hq (f := f) (fun _ => ⟨rfl, rfl, rfl⟩) hcleared
    refine (consistent_resetGenerative hc₂ hcleared.parameter).mono ?_ fun _ h => h
    rintro _ w₃ ⟨hc₃, -⟩
    exact hc₃.markStaleIfUsed p

theorem consistent_set (p : Ref) (values : List α) (label : Argument Label) (force : Bool) :
    Moves KeepsConsistent (set p values label force) := by
  refine moves_of_consistent fun w hc => ends_set_of hc fun q l rounded hq _ _ _ w₂ hcleared => ?_
  let f (q : Parameter α) : Parameter α :=
    { q with supports := (SupportMap.empty.addAll rounded l).2 }
  let g (q : Parameter α) : Parameter α :=
    { q with hasGenerative := false, hasInternal := l.internal }
  have hc₂ := consistent_refresh hc hq (f := f) (fun _ => ⟨rfl, rfl, rfl⟩) hcleared
  exact (hc₂.modifyParameter (f := g) hcleared.parameter rfl
    fun _ => ⟨rfl, rfl, rfl⟩).markStaleIfUsed p

/-- Anything about a parameter but its values, its method and its flag can change. -/
theorem consistent_modifyParameter (p : Ref) {f : Parameter α → Parameter α}
    (hf : ∀ q, (f q).digits = q.digits ∧ (f q).domain = q.domain ∧
      (f q).supports = q.supports ∧ (f q).method = q.method ∧
        (f q).hasEquations = q.hasEquations) (hc : w.model.Consistent)
    (hq : w.model.parameter (.given p) = .ok q) : (w.model.modifyParameter p f).Consistent := by
  obtain ⟨hdigits, hdomain, hsupports, hmethod, hflag⟩ := hf q
  exact hc.keep (Model.alters_modifyParameter w.model p f fun q => ⟨(hf q).1, (hf q).2.1⟩) hq
    (Model.parameter_modifyParameter hq f) (by rw [hsupports]) hmethod hflag fun _ => rfl

theorem consistent_addGenerative (p : Ref) :
    Moves KeepsConsistent (addGenerative (α := α) p) := by
  refine moves_of_consistent fun w hc => ends_addGenerative_of hc (fun _ _ _ => hc)
    fun q basis label derived hq _ _ _ => ?_
  refine (((consistent_add p derived (.given label) false).ends w).and
    ((moves_add p derived (.given label) false).ends w)).mono ?_ fun _ h => h.1 hc
  rintro _ w₁ ⟨hc₁, ht₁⟩
  obtain ⟨q₁, hq₁, -⟩ := ht₁.model.parameter hq
  exact consistent_modifyParameter p (fun _ => ⟨rfl, rfl, rfl, rfl, rfl⟩) (hc₁ hc) hq₁

/-- The way in which supports are derived is nothing that stored equations depend on here: whatever
they were built from, it is still there. -/
theorem consistent_setInfo (p : Ref) (info : Argument (GenerativeInfo α)) :
    Moves KeepsConsistent (setInfo p info) := by
  cases info with
  | mistyped value => exact .throw _
  | given info =>
    refine moves_of_consistent fun w hc => ?_
    cases hq : w.model.parameter (.given p) with
    | error e => simp [setInfo, resetGenerative, hq, hc]
    | ok q =>
      simp only [setInfo, ends_bind, ends_query, ends_modifyModel]
      refine (consistent_resetGenerative hc hq).mono ?_ fun _ h => h
      rintro _ w₁ ⟨hc₁, -⟩
      refine ⟨fun q₁ hq₁ => ?_, fun _ _ => hc₁⟩
      exact (consistent_modifyParameter p (f := fun q => { q with info })
        (fun _ => ⟨rfl, rfl, rfl, rfl, rfl⟩) hc₁ hq₁).markStaleIfUsed p

/-- Before the method is replaced, the equations are dropped with their flag. -/
theorem consistent_setMethod (p : Ref) (method : Argument DerivativeMethod) :
    Moves KeepsConsistent (setMethod (α := α) p method) := by
  cases method with
  | mistyped value => exact .throw _
  | given method =>
    refine moves_of_consistent fun w hc => ?_
    simp only [setMethod, ends_bind, ends_query, ends_modifyModel]
    refine ⟨fun q hq => ?_, fun _ _ => hc⟩
    refine (ends_resetEquations hq).mono ?_ fun _ h => h.elim
    rintro _ w₁ ⟨hcleared, -⟩
    refine ((consistent_resetGenerative (hcleared.consistent hc hq) hcleared.parameter).and
      ((moves_resetGenerative p).ends w₁)).mono ?_ fun _ h => h.1
    rintro _ w₂ ⟨⟨hc₂, hflag⟩, ht₂⟩
    -- the flag is down, so no equations are left that the old method could have built
    obtain ⟨q₂, hq₂, -⟩ := ht₂.model.parameter hcleared.parameter
    let f (q : Parameter α) : Parameter α := { q with method, info := method.generativeInfo }
    exact (hc₂.modifyParameter (f := f) hq₂ (hflag rfl q₂ hq₂) fun _ => ⟨rfl, rfl, rfl⟩)
      |>.markStaleIfUsed p

end Store

/-! ## Evaluations and edits -/

namespace Evaluation

open Operation Workspace Store

variable {m : Model α} {d : Ref} {q : Parameter α}

/-- A parameter carries the equations that were just built from it. -/
theorem carries_of_build {variableRef : Ref} {equations : List (Equation α)}
    (h : build d variableRef q = .ok equations) :
    Parameter.Carries { q with hasEquations := true } d variableRef equations where
  flag := rfl
  fits := fitsOn_of_build h
  stencil technique ht := by
    have ht : q.method = .finiteDifference technique := ht
    rw [build, ht] at h
    exact h

/-- Storing equations that were just built, with the flag. -/
theorem consistent_storeEquations {object : Derivative} {equations : List (Equation α)}
    (hc : m.Consistent) (hd : m.derivative d = .ok object)
    (hq : m.parameter (.given object.parameter) = .ok q)
    (hbuild : build d object.ref q = .ok equations) :
    ((m.storeEquations d.index.toNat equations).modifyParameter object.parameter
      fun q => { q with hasEquations := true }).Consistent := by
  have ht := Model.touches_storeEquations_derivative hc.derivatives hd equations
  have hq' := Model.parameter_modifyParameter (m := m.storeEquations d.index.toNat equations) hq
    fun q => { q with hasEquations := true }
  refine hc.alter ht.toAlters hq' (hc.relates.storeEquations hd hq
      (fun _ _ _ hcarries => hcarries.congr rfl rfl rfl) (carries_of_build hbuild))
    fun _ => ⟨d.index, object, (Model.derivative_eq_ok.1 hd).2.2, rfl, ?_⟩
  change ((m.storeEquations d.index.toNat equations).equations? d.index).isSome = true
  rw [Model.equations?_storeEquations_derivative hd, if_pos rfl]
  cases m.equations? d.index <;> rfl

theorem consistent_evaluate (d : Ref) : Moves KeepsConsistent (evaluate (α := α) d) := by
  refine moves_of_consistent fun w hc => ends_evaluate_of hc (fun _ _ => hc)
    fun object _ hobject => ?_
  refine (((consistent_addGenerative object.parameter).ends w).and
    ((moves_addGenerative object.parameter).ends w)).mono ?_ fun _ h => h.1 hc
  rintro _ w₁ ⟨hc₁, ht₁⟩
  exact ⟨hc₁ hc, fun q₁ equations hq₁ hbuild => consistent_storeEquations (hc₁ hc)
    (ht₁.model.objects.derivative.2 hobject) hq₁ hbuild⟩

end Evaluation

namespace Model

variable {m m' : Model α} {p : Ref} {q : Parameter α}

/-- Without a derivative and its equations, the flag of its parameter is kept if some other
derivative has equations, and reset otherwise. -/
theorem Consistent.flagged_eraseDerivative (hc : m.Consistent) {i : Int} {d : Derivative}
    (hd : m.derivatives.get? i = some d) (hq : m.parameter (.given d.parameter) = .ok q) :
    let kept : Model α := { m.dropEquations i with derivatives := m.derivatives.erase i }
    let erased : Model α :=
      if (kept.derivativesOf d.parameter).any fun d => (kept.equations? d.index).isSome then kept
      else kept.modifyParameter d.parameter fun q => { q with hasEquations := false }
    ∀ p' q', erased.parameter (.given p') = .ok q' → q'.hasEquations = true →
      erased.Evaluated p' := by
  intro kept erased
  -- other parameters lose no derivative
  have hothers : ∀ p' q', m.parameter (.given p') = .ok q' → p' ≠ d.parameter →
      q'.hasEquations = true → kept.Evaluated p' := by
    intro p' q' hq' hp' hset
    obtain ⟨j, d', hd', hdp, hsome⟩ := hc.flagged p' q' hq' hset
    have hne : j ≠ i := by
      rintro rfl
      rw [hd] at hd'
      cases hd'
      exact hp' hdp.symm
    have hlook : kept.equations? j = m.equations? j := by
      rw [show kept.equations? j = _ from equations?_dropEquations i j, if_neg hne]
    exact ⟨j, d', by rw [Table.get?_erase, if_neg hne, hd'], hdp, by rwa [hlook]⟩
  intro p' q' hq₁ hset
  simp only [erased] at hq₁ ⊢
  split at hq₁
  · -- the flag stays, and another derivative with equations is a reason for it
    rename_i hany
    rw [if_pos hany]
    by_cases hp' : p' = d.parameter
    · subst hp'
      obtain ⟨ref, href, hsome⟩ := List.any_eq_true.1 hany
      obtain ⟨⟨n, d'⟩, hmem, rfl⟩ := List.mem_map.1 href
      obtain ⟨hmem, hp⟩ := List.mem_filter.1 hmem
      exact ⟨n, d', Table.get?_of_mem_rows (hc.derivatives.erase i) hmem, of_decide_eq_true hp,
        hsome⟩
    · exact hothers p' q' hq₁ hp' hset
  · -- the flag of this parameter is reset
    rename_i hnone
    rw [if_neg hnone]
    let f (q : Parameter α) : Parameter α := { q with hasEquations := false }
    have ht := alters_modifyParameter kept d.parameter f fun _ => ⟨rfl, rfl⟩
    have hq' := parameter_modifyParameter (m := kept) hq f
    by_cases hp' : p' = d.parameter
    · subst hp'
      rw [hq'] at hq₁
      cases hq₁
      cases hset
    · exact hothers p' q' ((ht.parameter_of_ne (index_ne hq' hq₁ hp')).1 hq₁) hp' hset

/-- A new parameter is at the end of the table and has no flag. -/
theorem Consistent.pushParameter (hc : m.Consistent) {q : Parameter α} (hnew : q.New) :
    (m.pushParameter q).2.Consistent := by
  have hrelates := hc.relates.pushParameter q
  refine ⟨hrelates.derivatives, hrelates.stored, fun p q₁ hq₁ hset => ?_⟩
  obtain ⟨hid, hkind, hget⟩ := parameter_eq_ok.1 hq₁
  rcases Table.get?_push hget with hget | ⟨-, rfl⟩
  · exact hc.flagged p q₁ (parameter_eq_ok.2 ⟨hid, hkind, hget⟩) hset
  · rw [hnew.hasEquations] at hset
    cases hset

/-- Edits of the model keep it consistent. -/
theorem Edits.consistent (h : m.Edits m') (hc : m.Consistent) : m'.Consistent := by
  have hrelates := hc.relates.edit h
  cases h with
  | addDerivative ha =>
    obtain ⟨v, variableName, parameters, q, -, -, -, -, rfl⟩ := Model.exists_of_addDerivative ha
    refine ⟨hrelates.derivatives, hrelates.stored, fun p q₁ hq₁ hset => ?_⟩
    obtain ⟨i, d, hd, hdp, hsome⟩ := hc.flagged p q₁ hq₁ hset
    exact ⟨i, d, Table.get?_push_of_some hd _, hdp, hsome⟩
  | deleteDerivative hd =>
    obtain ⟨ref, d, _, q, hderivative, -, rfl, hq, rfl⟩ := exists_of_deleteDerivative hd
    obtain ⟨-, -, hfound⟩ := derivative_eq_ok.1 hderivative
    exact ⟨hrelates.derivatives, hrelates.stored, hc.flagged_eraseDerivative hfound hq⟩
  | other hid hp hd he =>
    refine ⟨hrelates.derivatives, hrelates.stored, fun p q₁ hq₁ hset => ?_⟩
    have hq₁ : m.parameter (.given p) = .ok q₁ := by
      rw [parameter_eq_ok] at hq₁ ⊢
      rwa [← hid, ← hp]
    obtain ⟨i, d, hd', hdp, hsome⟩ := hc.flagged p q₁ hq₁ hset
    exact ⟨i, d, by rwa [hd], hdp, by rwa [equations?, he]⟩

end Model

open Store in
/-- Models stay consistent, whatever is asked for. -/
theorem governs_keepsConsistent : Governs (KeepsConsistent (α := α)) where
  push _ _ hnew hc := hc.pushParameter hnew
  edit _ _ h hc := h.consistent hc
  set := consistent_set
  add := consistent_add
  delete p label := moves_of_consistent fun _ hc =>
    (consistent_delete hc p label).mono (fun _ _ h => h.1) fun _ h => h
  addGenerative := consistent_addGenerative
  setMethod := consistent_setMethod
  evaluate := Evaluation.consistent_evaluate

theorem Requested.consistent {m : Model α} (h : Requested m) : m.Consistent := by
  induction h with
  | start id name =>
    refine ⟨.empty, nofun, fun p q hq => ?_⟩
    obtain ⟨-, -, hget⟩ := Model.parameter_eq_ok.1 hq
    cases hget
  | @step m _ e request ih =>
    obtain ⟨w', hw', hkeeps⟩ := Request.moves_perform
      (governs_keepsConsistent.operation request fun p info _ => Store.consistent_setInfo p info)
      ⟨e, m⟩
    exact hw' ▸ hkeeps ih

/-- In every model that comes about by requests, stored equations belong to live derivatives, the
flag of a parameter is set exactly if some live derivative with respect to it has stored equations,
and these refer to its current supports only; those of a finite difference are the stencil of its
technique over them. -/
theorem consistent_of_requested {m : Model α} (h : Requested m) :
    (∀ row ∈ m.equations, ∃ d, m.derivatives.get? row.1 = some d) ∧
    ∀ p q, m.parameter (.given p) = .ok q →
      (q.hasEquations = true ↔ ∃ d object equations, m.derivative d = .ok object ∧
        object.parameter = p ∧ m.equations? d.index = some equations) ∧
      ∀ d object equations, m.derivative d = .ok object → object.parameter = p →
        m.equations? d.index = some equations →
          (∀ e ∈ equations, ∀ term ∈ e.terms, term.value ∈ q.supports.values) ∧
          ∀ technique, q.method = .finiteDifference technique →
            technique.Yields d object.ref q.supports.values equations := by
  have hc := h.consistent
  have hcarries : ∀ q d object equations, m.derivative d = .ok object →
      m.parameter (.given object.parameter) = .ok q → m.equations? d.index = some equations →
      q.Carries d object.ref equations := by
    intro q d object equations hd hq hi
    obtain ⟨hid, hkind, hfound⟩ := Model.derivative_eq_ok.1 hd
    have href : (⟨m.id, .derivative, d.index⟩ : Ref) = d := by rw [← hid, ← hkind]
    exact href ▸ hc.relates.holds hfound hq hi
  refine ⟨fun row hrow => ?_, fun p q hq => ⟨⟨fun hset => ?_, ?_⟩, ?_⟩⟩
  · -- the row itself may be hidden by an earlier one of the same derivative
    obtain ⟨equations, he⟩ : ∃ equations, m.equations? row.1 = some equations := by
      rw [← Option.isSome_iff_exists, Model.equations?, Option.isSome_map, List.find?_isSome]
      exact ⟨row, hrow, by simp⟩
    obtain ⟨d, -, hd, -⟩ := hc.stored _ _ he
    exact ⟨d, hd⟩
  · obtain ⟨i, d, hd, hdp, hsome⟩ := hc.flagged p q hq hset
    obtain ⟨equations, he⟩ := Option.isSome_iff_exists.1 hsome
    exact ⟨⟨m.id, .derivative, i⟩, d, equations, Model.derivative_eq_ok.2 ⟨rfl, rfl, hd⟩, hdp, he⟩
  · rintro ⟨d, object, equations, hd, rfl, he⟩
    exact (hcarries q d object equations hd hq he).flag
  · rintro d object equations hd rfl he
    have hcarried := hcarries q d object equations hd hq he
    exact ⟨fun e hmem term hterm => (hcarried.fits e hmem term hterm).2,
      fun technique hmethod => Technique.yields_of_differences (hcarried.stencil technique hmethod)⟩

/-- Two derivatives with respect to one parameter, one of which was deleted after both were
evaluated; a support got one more label since. The equations that are left say
`1 / 4 * d 0 - x (1 / 4) + x 0 = 0` and `3 / 4 * d (1 / 4) - x 1 + x (1 / 4) = 0`. -/
theorem consistent_of_requested_deleted :
    let p : Ref := ⟨0, .parameter, 1⟩
    let x : Ref := ⟨0, .infiniteVariable, 1⟩
    let d : Ref := ⟨0, .derivative, 1⟩
    let deleted : Ref := ⟨0, .derivative, 2⟩
    let m : Model ℚ := Request.replay { id := 0 }
      [.addParameter (.scalar (.interval 0 1)) "t" (some [0, 1 / 4, 1]) 0 (some 6)
        (.finiteDifference .forward),
      .addInfiniteVariable "x" [.given p] none none .none false,
      .addDerivative (.given x) p "dx" (.ok "t"),
      .addDerivative (.given x) p "dx" (.ok "t"),
      .evaluateAll,
      .deleteDerivative (.given deleted),
      .addSupports p [1] (.given .uniformGrid) true]
    Requested m ∧ ∃ q, m.parameter (.given p) = .ok q ∧ q.hasEquations = true ∧
      ∃ object equations, m.derivative d = .ok object ∧ m.equations? d.index = some equations ∧
        (equations.map fun e => e.terms.map fun term => (term.coefficient, term.ref, term.value)) =
          [[(1 / 4, d, 0), (-1, x, 1 / 4), (1, x, 0)],
            [(3 / 4, d, 1 / 4), (-1, x, 1), (1, x, 1 / 4)]] ∧
        Technique.forward.Yields d object.ref q.supports.values equations := by
  intro p x d deleted m
  have hr : Requested m := .replay (.start 0 "model") _
  obtain ⟨q, hq, hmethod⟩ := Except.exists_of_decide (x := m.parameter (.given p))
    (fun q => q.method = .finiteDifference .forward) (by decide +kernel)
  obtain ⟨object, hd, hp⟩ := Except.exists_of_decide (x := m.derivative d)
    (fun object => object.parameter = p) (by decide +kernel)
  have hterms : ((m.equations? d.index).map fun equations => equations.map fun e =>
      e.terms.map fun term => (term.coefficient, term.ref, term.value)) =
        some [[(1 / 4, d, 0), (-1, x, 1 / 4), (1, x, 0)],
          [(3 / 4, d, 1 / 4), (-1, x, 1), (1, x, 1 / 4)]] := by decide +kernel
  obtain ⟨equations, he, hterms⟩ := Option.map_eq_some_iff.1 hterms
  obtain ⟨hflag, hstored⟩ := (consistent_of_requested hr).2 p q hq
  exact ⟨hr, q, hq, hflag.2 ⟨d, object, equations, hd, hp, he⟩, object, equations, hd, he, hterms,
    (hstored d object equations hd hp he).2 .forward hmethod⟩

end Discretization
