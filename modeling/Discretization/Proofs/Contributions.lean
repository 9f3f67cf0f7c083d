import Discretization.Proofs.Additions
import Discretization.Proofs.Policies

/-!
# What Measures Keep in Store

A measure stores its points on the parameters that it integrates over, under the label of its data.
Labels are all that supports are told apart by. If the points carry the label of the derived
supports of a parameter, they are taken away with them, and if two measures share a label of their
own, deleting one takes the points of both away; a build stores the points of all measures again.
Apart from this, and as long as no supports are deleted or replaced on purpose, the points of a
measure stay in store while the measure is live, whatever is added and deleted beside it.

## Main definitions

* `Workspace.SparesAt`: what is stored on a parameter under a label that derived supports do not
  have still is;
* `Model.Contributes`: the points of a measure are stored on a parameter;
* `Request.SparesPoints`: the requests that leave the points of a measure on a parameter alone.

## Main results

* `Store.sparesAt_delete`: deleting a label leaves what is stored under another one;
* `Modeling.ends_addMeasure_contributes`: a new measure stores its points;
* `Request.contributes_perform`: a request that spares the points of a measure leaves them in store;
* `contributes_of_requestedBy`: they stay in store;
* `not_contributes_of_requestedBy`: not if they carry the label of derived supports.
-/

namespace Discretization

open Operation Workspace
open Relation (ReflTransGen)

variable {α : Type} [Scalar α]

/-! ## Deleting labels -/

namespace Parameter

variable {q q' q'' : Parameter α} {l : Label}

/-- The second parameter rounds like the first and has what was stored there under a label. -/
structure SparesUnder (l : Label) (q q' : Parameter α) : Prop where
  digits : q'.digits = q.digits
  stores : ∀ x, q.supports.Stores x l → q'.supports.Stores x l

omit [Scalar α] in
theorem SparesUnder.refl (l : Label) (q : Parameter α) : q.SparesUnder l q :=
  ⟨rfl, fun _ h => h⟩

omit [Scalar α] in
theorem SparesUnder.trans (h : q.SparesUnder l q') (h' : q'.SparesUnder l q'') :
    q.SparesUnder l q'' :=
  ⟨h'.digits.trans h.digits, fun x hx => h'.stores x (h.stores x hx)⟩

theorem SparesUnder.storesLike (h : q.SparesUnder l q') {x : α} (hx : q.supports.StoresLike x l) :
    q'.supports.StoresLike x l := by
  obtain ⟨y, hy, hyx⟩ := hx
  exact ⟨y, h.stores y hy, hyx⟩

omit [Scalar α] in
theorem Spares.under (h : q.Spares q') (ha : q.Apart l) : q.SparesUnder l q' :=
  ⟨h.digits, fun x hx => h.stores x l hx ha⟩

omit [Scalar α] in
theorem Apart.not_undoes (h : q.Apart l) (hd : q.Derivable) : ¬ q.Undoes l := by
  rintro ⟨hgen, hlabel⟩
  obtain ⟨basis, derived, hinfo, -⟩ := hd hgen
  rw [hinfo] at hlabel
  exact h basis derived hinfo (Except.ok.inj hlabel)

omit [Scalar α] in
/-- Deleting a label, with that of derived supports in place, does not cover a label apart from
both. -/
theorem Apart.not_covered (h : q.Apart l) (hd : q.Derivable) {label derived : Label}
    (hlabel : label.isSelector = false) (hne : label ≠ l) (hinfo : q.info.label = .ok derived) :
    Label.coveredBy (Store.selectors q label derived) l = false := by
  have hcovers : label.covers l = false := by
    simp [Store.covers_eq_beq hlabel, hne.symm]
  unfold Store.selectors
  split
  · rename_i hboth
    simp only [Bool.and_eq_true, bne_iff_ne] at hboth
    -- derived supports in place have a label of their own, and this is it
    obtain ⟨basis, derived', hinfo', hown⟩ := hd hboth.1
    obtain rfl : derived' = derived := by
      rw [hinfo'] at hinfo
      exact Except.ok.inj hinfo
    have hapart := h basis derived' hinfo'
    simp [Label.coveredBy, hcovers, Store.covers_eq_beq hown, hapart.symm]
  · simp [Label.coveredBy, hcovers]

end Parameter

/-- On a parameter, what is stored under a label apart from that of its derived supports still is,
and the label is still apart. -/
def Workspace.SparesAt (p : Ref) (l : Label) (w w' : Workspace α) : Prop :=
  ∀ q, w.model.parameter (.given p) = .ok q → q.Derivable → q.Apart l →
    ∃ q', w'.model.parameter (.given p) = .ok q' ∧ q'.Derivable ∧ q'.Apart l ∧ q.SparesUnder l q'

omit [Scalar α] in
instance (p : Ref) (l : Label) : IsPreorder (Workspace α) (SparesAt p l) where
  refl _ q hq hd ha := ⟨q, hq, hd, ha, .refl l q⟩
  trans _ _ _ h h' := by
    intro q hq hd ha
    obtain ⟨q', hq', hd', ha', hs⟩ := h q hq hd ha
    obtain ⟨q'', hq'', hd'', ha'', hs'⟩ := h' q' hq' hd' ha'
    exact ⟨q'', hq'', hd'', ha'', hs.trans hs'⟩

omit [Scalar α] in
/-- Nothing happened to the parameter. -/
theorem Workspace.SparesAt.of_parameter {p : Ref} {l : Label} {w w' : Workspace α}
    (h : ∀ q, w.model.parameter (.given p) = .ok q → w'.model.parameter (.given p) = .ok q) :
    w.SparesAt p l w' :=
  fun q hq hd ha => ⟨q, h q hq, hd, ha, .refl l q⟩

/-- Under a label that is apart, parameters that grow spare their supports. -/
theorem Workspace.Follows.sparesAt {w w' : Workspace α}
    (h : Follows .free (Parameter.Growth .free) w w') (p : Ref) (l : Label) :
    w.SparesAt p l w' := by
  intro q hq hd ha
  obtain ⟨q', hq', hgrowths⟩ := h.kept p q hq
  obtain ⟨hinfo, hderivable, hspares⟩ := Parameter.endures_of_growths hgrowths hd
  refine ⟨q', hq', hderivable, ?_, hspares.under ha⟩
  unfold Parameter.Apart
  rwa [hinfo]

namespace Store

variable {p p' : Ref} {l label : Label}

/-- Deleting a label leaves other parameters alone. -/
theorem sparesAt_delete_of_ne (hp : p' ≠ p) (l label : Label) :
    Moves (SparesAt p l) (delete p' label : Operation α Unit) := by
  refine ⟨fun w => ?_⟩
  by_cases hlive : ∃ q₁, w.model.parameter (.given p') = .ok q₁
  · obtain ⟨q₁, hq₁⟩ := hlive
    have hother : ∀ w' : Workspace α, w.Touches p' w' → w.SparesAt p l w' := fun w' ht =>
        .of_parameter fun q hq =>
        (ht.model.parameter_of_ne (Model.index_ne hq₁ hq hp.symm)).2 hq
    exact ((moves_delete p' label).ends w).mono (fun _ => hother) hother
  -- without the other parameter nothing is deleted
  · have hsame : ∀ w', w' = w → w.SparesAt p l w' := by
      rintro w' rfl
      exact refl_of (SparesAt p l) w'
    exact (ends_query_bind_of_missing fun q hq => hlive ⟨q, hq⟩).mono (fun _ => hsame) hsame

/-- Deleting a label leaves what is stored under another one. -/
theorem sparesAt_delete (hlabel : label.isSelector = false) (hne : label ≠ l) :
    Moves (SparesAt p l) (delete p label : Operation α Unit) := by
  have hall : label ≠ .all := by
    rintro rfl
    simp [Label.isSelector, Label.all, LabelKind.selects] at hlabel
  refine ⟨fun w => ends_delete hall (fun _ _ => refl_of (SparesAt p l) w) fun q w₁ hq hw₁ => ?_⟩
  have hcleared : w.SparesAt p l w₁ := by
    intro q₀ hq₀ hd ha
    obtain rfl : q = q₀ := Except.ok.inj (hq.symm.trans hq₀)
    exact ⟨_, hw₁.parameter, hd, ha, rfl, fun _ h => h⟩
  refine ⟨fun _ _ => hcleared, fun derived hinfo supports failed hstrip => ?_⟩
  -- whether or not the stripping ends early, it spares the label
  have hstripped : ∀ (internal : Bool) (w' : Workspace α), w'.model.parameter (.given p) =
      .ok { q with supports, hasGenerative := false, hasInternal := internal,
                   hasEquations := false } → w.SparesAt p l w' := by
    intro internal w' hq' q₀ hq₀ hd ha
    obtain rfl : q = q₀ := Except.ok.inj (hq.symm.trans hq₀)
    refine ⟨_, hq', fun hgen => Bool.noConfusion hgen, ha, rfl, fun x hx => ?_⟩
    have hspared := hx.strip (ha.not_covered hd hlabel hne hinfo)
    rwa [hstrip] at hspared
  have hq₂ := Model.parameter_modifyParameter hw₁.parameter fun q₁ =>
    { q₁ with supports, hasGenerative := false }
  exact ⟨fun _ => hstripped _ _ hq₂, fun _ => hstripped _ _
    ((Model.parameter_markStaleIfUsed _).trans (Model.parameter_modifyParameter hq₂ _))⟩

end Store

/-! ## Deleting and adding measures -/

namespace Modeling

variable {w : Workspace α} {p : Ref} {l : Label}

/-- Deleting a measure takes it out of the model first, and then a label of its own off the
parameters. -/
theorem ends_deleteMeasure_of {ok : Unit → Workspace α → Prop} {fail : Workspace α → Prop}
    {handle : Handle} (hfail : fail w)
    (h : ∀ ref μ, handle = .given ref → w.model.measure ref = .ok μ →
      Ends (do
        if μ.data.label.kind = .uniqueMeasure then
          for p in μ.data.parameters do
            Store.delete p μ.data.label
        modifyModel (·.markStale) : Operation α Unit)
        { w with model := { w.model with measures := w.model.measures.erase ref.index } } ok fail) :
    Ends (deleteMeasure handle) w ok fail := by
  unfold deleteMeasure
  rw [ends_bind, ends_query]
  refine ⟨fun ref href => ?_, fun _ _ => hfail⟩
  rw [ends_bind, ends_query]
  refine ⟨fun μ hμ => ?_, fun _ _ => hfail⟩
  rw [ends_bind, ends_query]
  refine ⟨fun _ _ => ?_, fun _ _ => hfail⟩
  rw [ends_bind, ends_modifyModel]
  -- what is left starts from the model without the measure
  obtain ⟨hgiven, -, -⟩ := Model.ownedOf_eq_ok.1 href
  exact h ref μ hgiven hμ

/-- Taking the label of a deleted measure off its parameters leaves what is stored on a parameter
under another one. -/
theorem sparesAt_stripMeasure {μ : Measure α}
    (hown : μ.data.label.kind = .uniqueMeasure → p ∈ μ.data.parameters →
      μ.data.label.isSelector = false ∧ μ.data.label ≠ l) :
    Moves (SparesAt p l) (do
      if μ.data.label.kind = .uniqueMeasure then
        for p in μ.data.parameters do
          Store.delete p μ.data.label
      modifyModel (·.markStale) : Operation α Unit) := by
  have hstale : Moves (SparesAt p l) (modifyModel (·.markStale) : Operation α Unit) :=
    ⟨fun w => (ends_modifyModel _).2 (.of_parameter fun q hq => hq)⟩
  dsimp only
  split
  · rename_i hkind
    refine Moves.bind (.forIn_of_mem (fun p' hp' _ => Moves.bind ?_ fun _ => .pure _) _)
      fun _ => hstale
    -- only the parameter in question can lose anything at it
    by_cases hp : p' = p
    · subst hp
      obtain ⟨hlabel, hne⟩ := hown hkind hp'
      exact Store.sparesAt_delete hlabel hne
    · exact Store.sparesAt_delete_of_ne hp l _
  · exact hstale

/-- A row of rounded values is stored under a label that is apart from that of derived supports. -/
theorem ends_add_row {q : Parameter α} (hq : w.model.parameter (.given p) = .ok q)
    (hd : q.Derivable) (ha : q.Apart l) {row : List α} (hr : roundList q.digits row = .ok row) :
    Ends (Store.add p row (.given l) false) w
      (fun _ w' => ∀ q', w'.model.parameter (.given p) = .ok q' →
        ∀ x ∈ row, q'.supports.StoresLike x l)
      fun _ => True := by
  refine (Store.ends_add_storesLike hq hd).mono ?_ fun _ h => h
  rintro anyNew w' ⟨q₁, rounded, hq₁, hr₁, -, hstores⟩ q' hq'
  obtain rfl : q₁ = q' := Except.ok.inj (hq₁.symm.trans hq')
  obtain rfl : row = rounded := Except.ok.inj (hr.symm.trans hr₁)
  apply hstores.2
  rintro ⟨-, hundoes⟩
  exact ha.not_undoes hd hundoes

/-- A loop that stores rows of rounded values leaves those of a parameter under their label, if that
is apart from the label of its derived supports. -/
theorem ends_forIn_add_storesLike (hd : ∀ p q, w.model.parameter (.given p) = .ok q → q.Derivable)
    {pairs : List (Ref × List α)}
    (hrounded : ∀ pair ∈ pairs, ∀ q, w.model.parameter (.given pair.1) = .ok q →
      roundList q.digits pair.2 = .ok pair.2) (l : Label) (p : Ref) :
    Ends (forIn pairs PUnit.unit fun pair _ => do
        let _ ← Store.add pair.1 pair.2 (.given l) false
        return .yield PUnit.unit) w
      (fun _ w' => w.Keeps w' ∧ ∀ row, (p, row) ∈ pairs → ∀ q q',
        w.model.parameter (.given p) = .ok q → q.Apart l →
          w'.model.parameter (.given p) = .ok q' → ∀ x ∈ row, q'.supports.StoresLike x l)
      fun w' => w.Keeps w' := by
  -- the turns so far have stored their rows, and none of them goes again
  refine (Ends.forIn (fun gone w' => Follows .free (Parameter.Growth .free) w w' ∧ w.Keeps w' ∧
    ∀ row, (p, row) ∈ gone → ∀ q q', w.model.parameter (.given p) = .ok q → q.Apart l →
      w'.model.parameter (.given p) = .ok q' → ∀ x ∈ row, q'.supports.StoresLike x l)
    ⟨refl_of _ w, refl_of _ w, by simp⟩ ?_).mono (fun _ w' h => h.2) fun _ h => h
  rintro gone ⟨p', row⟩ rest w₁ hpairs ⟨hf₁, hk₁, hgone⟩
  have hmem : (p', row) ∈ pairs := by simp [hpairs]
  -- what the step stores on the parameter, if it is about that one
  have hstores : Ends (Store.add p' row (.given l) false) w₁
      (fun _ w₂ => p' = p → ∀ q q', w.model.parameter (.given p) = .ok q → q.Apart l →
        w₂.model.parameter (.given p) = .ok q' → ∀ x ∈ row, q'.supports.StoresLike x l)
      fun _ => True := by
    by_cases hlive : p' = p ∧ ∃ q, w.model.parameter (.given p) = .ok q ∧ q.Apart l
    · obtain ⟨rfl, q, hq, ha⟩ := hlive
      obtain ⟨q₁, hq₁, hd₁, ha₁, hspares⟩ := hf₁.sparesAt p' l q hq (hd p' q hq) ha
      have hr := hrounded _ hmem q hq
      rw [← hspares.digits] at hr
      exact (ends_add_row hq₁ hd₁ ha₁ hr).mono (fun _ _ h _ _ q' _ _ hq' => h q' hq') fun _ h => h
    · exact .of_forall (fun _ _ hp q _ hq ha => absurd ⟨hp, q, hq, ha⟩ hlive) fun _ => trivial
  have hgrows : Moves (Follows .free (Parameter.Growth .free))
      (Store.add p' row (.given l) false) := Store.follows_add p' fun _ _ _ _ => trivial
  rw [ends_bind]
  have htouches := Store.moves_add p' row (.given l) false
  refine (((hgrows.ends w₁).and (htouches.ends w₁)).and hstores).mono ?_ ?_
  · rintro _ w₂ ⟨⟨hf₂, ht₂⟩, hnew⟩
    refine (ends_pure _).2 ⟨rfl, trans_of _ hf₁ hf₂, trans_of _ hk₁ ht₂.keeps, ?_⟩
    intro row' hrow' q q₂ hq ha hq₂
    rcases List.mem_append.1 hrow' with hbefore | hlast
    · -- what was stored by earlier turns is spared
      obtain ⟨q₁, hq₁, hd₁, ha₁, -⟩ := hf₁.sparesAt p l q hq (hd p q hq) ha
      obtain ⟨q', hq', -, -, hspares⟩ := hf₂.sparesAt p l q₁ hq₁ hd₁ ha₁
      obtain rfl : q' = q₂ := Except.ok.inj (hq'.symm.trans hq₂)
      exact fun x hx => hspares.storesLike (hgone row' hbefore q q₁ hq ha hq₁ x hx)
    · obtain ⟨rfl, rfl⟩ := Prod.mk.inj (List.mem_singleton.1 hlast)
      exact hnew rfl q q₂ hq ha hq₂
  · rintro w₂ ⟨⟨-, ht₂⟩, -⟩
    exact trans_of _ hk₁ ht₂.keeps

/-- The points of a new measure are stored on a parameter under its label, unless derived supports
have that label. -/
theorem ends_addMeasure_contributes [LawfulScalar α]
    (hd : ∀ p q, w.model.parameter (.given p) = .ok q → q.Derivable) (function : Handle)
    {data : MeasureData α} (hshaped : data.WellShaped) (name : String) (p : Ref) :
    Ends (addMeasure function data name) w
      (fun _ w' => ∃ μ, w'.model.measures = w.model.measures.push μ ∧ μ.data = data ∧
        (p ∈ data.parameters → data.label.isSelector = false) ∧
        ∀ row, (p, row) ∈ data.parameters.zip data.supports → ∃ q' rounded,
          w'.model.parameter (.given p) = .ok q' ∧ roundList q'.digits row = .ok rounded ∧
            (q'.Apart data.label → ∀ x ∈ rounded, q'.supports.StoresLike x data.label))
      fun w' => w'.model.measures = w.model.measures := by
  refine ends_addMeasure_of rfl fun ref functionParameters rows _ _ _ hrows => ?_
  refine (ends_forIn_add_storesLike hd (fun pair hpair q hq => ?_) data.label p).mono ?_
    fun _ hk => hk.objects.measures
  · obtain ⟨row, -, hchecked⟩ := exists_of_mem_zip hrows pair hpair
    obtain ⟨q₁, hq₁, -, hr, -⟩ := checkSupports_eq_ok.1 hchecked
    obtain rfl : q = q₁ := Except.ok.inj (hq.symm.trans hq₁)
    exact roundList_idem hr
  · rintro _ w₁ ⟨hk, hstores⟩
    refine ⟨fun _ _ => hk.objects.measures, fun name => ?_⟩
    refine ⟨_, congrArg (Table.push · _) hk.objects.measures, rfl, fun hp => ?_, ?_⟩
    · -- the points on the parameter were checked together with the label
      obtain ⟨n, hn, rfl⟩ := List.getElem_of_mem hp
      have hzip : n < (data.parameters.zip data.supports).length := by simp [hn, hshaped.rows]
      have hrow := List.getElem_mem hzip
      rw [List.getElem_zip] at hrow
      obtain ⟨rounded, -, hchecked⟩ := exists_mem_zip hrows _ hrow
      exact storable_of_checkSupports hchecked
    · intro row hrow
      obtain ⟨rounded, hmem, hchecked⟩ := exists_mem_zip hrows _ hrow
      obtain ⟨q, hq, -, hr, -⟩ := checkSupports_eq_ok.1 hchecked
      obtain ⟨q₁, hq₁, hdigits, -, hinfo⟩ := hk.parameter p q hq
      refine ⟨q₁, rounded, hq₁, hdigits ▸ hr, fun ha => hstores rounded hmem q q₁ hq ?_ hq₁⟩
      unfold Parameter.Apart at ha ⊢
      rwa [← hinfo]

end Modeling

/-! ## Requests -/

/-- The measures of both workspaces are the same. -/
def Workspace.KeepsMeasures (w w' : Workspace α) : Prop :=
  w'.model.measures = w.model.measures

omit [Scalar α] in
instance : IsPreorder (Workspace α) KeepsMeasures where
  refl _ := rfl
  trans _ _ _ h h' := h'.trans h

namespace Request

/-- Whether a request is about measures. -/
def revisesMeasures : Request α → Bool
  | addMeasure .. => true
  | deleteMeasure .. => true
  | _ => false

/-- All other requests leave the measures as they are. -/
theorem keepsMeasures (request : Request α) (h : request.revisesMeasures = false) :
    Moves KeepsMeasures request.operation := by
  have kept : ∀ {β : Type} {op : Operation α β}, Moves KeepsObjects op → Moves KeepsMeasures op :=
    fun hop => hop.mono fun _ _ hk => hk.objects.measures
  have edited : request.edits = true → Moves KeepsMeasures request.operation := fun hedits =>
    ⟨fun w => (ends_of_edits hedits w).mono (fun _ _ hw => hw.2.2) fun _ hw => hw ▸ rfl⟩
  cases request with
  | addMeasure _ _ _ _ | deleteMeasure _ => cases h
  | addParameter domain name supports count digits method =>
    exact (Modeling.moves_addParameter (fun _ _ _ _ _ => rfl)
      (fun p values => kept (KeepsObjects.of_touches (Store.moves_set p values _ false)))
      (fun p => kept (Store.keepsObjects_fillIn p _ true none))
      fun h => kept (keepsObjects_onEnvironment h)).bind fun _ => .pure _
  | addPointVariable variableRef values name =>
    refine Moves.bind ⟨fun w => Modeling.ends_addPointVariable_of (refl_of KeepsMeasures w)
      fun _ _ parameters rounded _ _ _ _ => ?_⟩ fun _ => .pure _
    exact ((Modeling.keepsObjects_forIn_add (parameters.zip rounded.flatten) (fun x => [x])
      .userDefined).ends w).mono (fun _ _ hk _ => hk.objects.measures)
        fun _ hk => hk.objects.measures
  | addInfiniteVariable _ _ _ _ _ _ | addFiniteVariable _ | addDerivative _ _ _ _
  | deleteDerivative _ | addConstraint _ _ _ _ _ | deleteConstraint _ | markStale =>
    exact edited rfl
  | _ => exact kept (moves_keepsObjects rfl)

end Request

/-- The points of a measure are stored on a parameter, rounded to its digits, under the label of the
measure. -/
def Model.Contributes (m : Model α) (i : Int) (p : Ref) : Prop :=
  ∀ μ row, m.measures.get? i = some μ → (p, row) ∈ μ.data.parameters.zip μ.data.supports →
    ∃ q rounded, m.parameter (.given p) = .ok q ∧ roundList q.digits row = .ok rounded ∧
      ∀ x ∈ rounded, q.supports.StoresLike x μ.data.label

/-- Derived supports of a parameter have another label than a measure over it. -/
def Model.Apart (m : Model α) (i : Int) (p : Ref) : Prop :=
  ∀ μ q, m.measures.get? i = some μ → p ∈ μ.data.parameters →
    m.parameter (.given p) = .ok q → q.Apart μ.data.label

/-- A second measure does not take supports with it that are those of a first one as well. -/
def Model.Disjoint (m : Model α) (i j : Int) (p : Ref) : Prop :=
  ∀ μ μ', m.measures.get? i = some μ → m.measures.get? j = some μ' → i ≠ j →
    p ∈ μ'.data.parameters → μ'.data.label.kind = .uniqueMeasure → μ'.data.label ≠ μ.data.label

/-- A measure that is gone from the second model did not take supports with it that are those of
another one as well. -/
def Model.Disjoins (m : Model α) (handle : Handle) (i : Int) (p : Ref) (m' : Model α) : Prop :=
  ∀ ref, handle = .given ref → m'.measures.get? ref.index = none → m.Disjoint i ref.index p

namespace Request

/-- Whether a request deletes or replaces supports on purpose. -/
def replacesSupports : Request α → Bool
  | setSupports .. => true
  | deleteSupports .. => true
  | _ => false

/-- The measure that a request is to delete. -/
def deletedMeasure? : Request α → Option Ref
  | deleteMeasure (.given ref) => some ref
  | _ => none

/-- A request that leaves the points of a measure on a parameter alone: supports are deleted with
other measures at most, and if such a measure goes, its supports are not those of the measure as
well, and derived supports get another label than the measure has. -/
structure SparesPoints (i : Int) (p : Ref) (m : Model α) (e : Environment α)
    (request : Request α) : Prop where
  supports : request.replacesSupports = false
  disjoint : ∀ ref ∈ request.deletedMeasure?,
    (request.perform ⟨e, m⟩).measures.get? ref.index = none → m.Disjoint i ref.index p
  apart : (request.perform ⟨e, m⟩).Apart i p

end Request

section Decidable

variable (m : Model α) (i j : Int) (p : Ref)

omit [Scalar α] in
instance (q : Parameter α) (l : Label) : Decidable (q.Apart l) :=
  match h : q.info with
  | .uniform _ derived => decidable_of_iff (derived ≠ l) (by simp [Parameter.Apart, h])
  | .none | .undefined => .isTrue (by simp [Parameter.Apart, h])

omit [Scalar α] in
instance : Decidable (m.Apart i p) :=
  match h : m.measures.get? i, h' : m.parameter (.given p) with
  | some μ, .ok q =>
    decidable_of_iff (p ∈ μ.data.parameters → q.Apart μ.data.label) (by simp [Model.Apart, h, h'])
  | none, _ | some _, .error _ => .isTrue (by simp [Model.Apart, h, h'])

omit [Scalar α] in
instance : Decidable (m.Disjoint i j p) :=
  match h : m.measures.get? i, h' : m.measures.get? j with
  | some μ, some μ' =>
    decidable_of_iff (i ≠ j → p ∈ μ'.data.parameters → μ'.data.label.kind = .uniqueMeasure →
      μ'.data.label ≠ μ.data.label) (by simp [Model.Disjoint, h, h'])
  | none, _ | some _, none => .isTrue (by simp [Model.Disjoint, h, h'])

instance (e : Environment α) (request : Request α) : Decidable (request.SparesPoints i p m e) :=
  decidable_of_iff (request.replacesSupports = false ∧
      (∀ ref ∈ request.deletedMeasure?,
        (request.perform ⟨e, m⟩).measures.get? ref.index = none → m.Disjoint i ref.index p) ∧
      (request.perform ⟨e, m⟩).Apart i p)
    ⟨fun ⟨hsupports, hdisjoint, ha⟩ => ⟨hsupports, hdisjoint, ha⟩,
      fun h => ⟨h.supports, h.disjoint, h.apart⟩⟩

end Decidable

/-- Measures over a parameter have labels that can be stored there. -/
def Model.StorableOver (m : Model α) (p : Ref) : Prop :=
  ∀ i μ, m.measures.get? i = some μ → p ∈ μ.data.parameters → μ.data.label.isSelector = false

section Steps

variable [LawfulScalar α] {i : Int} {p : Ref} {m : Model α} {e : Environment α}

omit [LawfulScalar α] in
/-- The points of a measure stay in store where its label is spared. -/
theorem Model.Contributes.of_spared {m' : Model α} {μ : Measure α} (h : m.Contributes i p)
    (ha : m.Apart i p) (hμ : m.measures.get? i = some μ)
    (hspared : ∀ q, m.parameter (.given p) = .ok q → q.Apart μ.data.label →
      ∃ q', m'.parameter (.given p) = .ok q' ∧ q.SparesUnder μ.data.label q')
    {row : List α} (hrow : (p, row) ∈ μ.data.parameters.zip μ.data.supports) :
    ∃ q rounded, m'.parameter (.given p) = .ok q ∧ roundList q.digits row = .ok rounded ∧
      ∀ x ∈ rounded, q.supports.StoresLike x μ.data.label := by
  obtain ⟨q, rounded, hq, hr, hstored⟩ := h μ row hμ hrow
  obtain ⟨q', hq', hspares⟩ := hspared q hq (ha μ q hμ (List.of_mem_zip hrow).1 hq)
  exact ⟨q', rounded, hq', hspares.digits ▸ hr, fun x hx => hspares.storesLike (hstored x hx)⟩

omit [Scalar α] [LawfulScalar α] in
theorem Workspace.Spares.under {w w' : Workspace α} (h : w.Spares w')
    (hd : ∀ p q, w.model.parameter (.given p) = .ok q → q.Derivable) (p : Ref) (l : Label) :
    ∀ q, w.model.parameter (.given p) = .ok q → q.Apart l →
      ∃ q', w'.model.parameter (.given p) = .ok q' ∧ q.SparesUnder l q' := by
  intro q hq ha
  obtain ⟨q', hq', hspares⟩ := h p q hq (hd p q hq)
  exact ⟨q', hq', hspares.under ha⟩

namespace Modeling

/-- A new measure leaves the points of the others in store, and has its own there unless derived
supports have its label. -/
theorem contributes_addMeasure (h : m.Contributes i p) (ha : m.Apart i p)
    (hd : ∀ p q, m.parameter (.given p) = .ok q → q.Derivable) (function : Handle)
    {data : MeasureData α} (hshaped : data.WellShaped) (name : String) :
    Ends (addMeasure function data name) ⟨e, m⟩
      (fun _ w' => w'.model.Apart i p → w'.model.Contributes i p)
      fun w' => w'.model.Contributes i p := by
  have hspares : Ends (addMeasure function data name) ⟨e, m⟩ (fun _ => Workspace.Spares ⟨e, m⟩)
      (Workspace.Spares ⟨e, m⟩) := by
    have hends := (Request.addMeasure function data hshaped name).spares_operation rfl ⟨e, m⟩
    rw [Request.operation, ends_bind] at hends
    simpa only [ends_pure] using hends
  refine (hspares.and (ends_addMeasure_contributes hd function hshaped name p)).mono ?_ ?_
  · rintro _ w' ⟨hs, μ', hpush, hdata, -, hnew⟩ ha' μ row hμ hrow
    have hget := hμ
    rw [hpush] at hget
    rcases Table.get?_push hget with hold | ⟨-, rfl⟩
    · exact h.of_spared ha hold (hs.under hd p _) hrow
    · obtain ⟨q', rounded, hq', hr, hstores⟩ := hnew row (hdata ▸ hrow)
      rw [← hdata] at hstores
      exact ⟨q', rounded, hq', hr, hstores (ha' μ q' hμ (List.of_mem_zip hrow).1 hq')⟩
  · rintro w' ⟨hs, hsame⟩ μ row hμ hrow
    rw [hsame] at hμ
    exact h.of_spared ha hμ (hs.under hd p _) hrow

omit [LawfulScalar α] in
/-- Deleting a measure leaves the points of the others in store, if it does not go or does not have
their label. -/
theorem contributes_deleteMeasure (h : m.Contributes i p) (ha : m.Apart i p)
    (hd : ∀ p q, m.parameter (.given p) = .ok q → q.Derivable) (hm : m.StorableOver p)
    (handle : Handle) :
    Ends (deleteMeasure handle) ⟨e, m⟩
      (fun _ w' => m.Disjoins handle i p w'.model → w'.model.Contributes i p)
      fun w' => m.Disjoins handle i p w'.model → w'.model.Contributes i p := by
  -- a deletion that is refused changes nothing
  refine ends_deleteMeasure_of (fun _ => h) fun ref μ' hgiven hμ' => ?_
  obtain ⟨-, -, hget'⟩ := Model.measure_eq_ok.1 hμ'
  let w₁ : Workspace α := ⟨e, { m with measures := m.measures.erase ref.index }⟩
  have gone : ∀ w' : Workspace α, w₁.KeepsObjects w' →
      (m.Disjoint i ref.index p → w'.model.Contributes i p) →
        m.Disjoins handle i p w'.model → w'.model.Contributes i p := by
    intro w' hk hkept hother
    refine hkept (hother ref hgiven ?_)
    simp [hk.objects.measures, w₁, Table.get?_erase]
  have left : ∀ w' : Workspace α, w₁.KeepsObjects w' →
      (∀ μ, m.measures.get? i = some μ → i ≠ ref.index → w₁.SparesAt p μ.data.label w') →
      w'.model.Contributes i p := by
    intro w' hk hs μ row hμ hrow
    rw [hk.objects.measures] at hμ
    obtain ⟨hne, hμ⟩ := Table.get?_of_get?_erase hμ
    refine h.of_spared ha hμ (fun q hq hapart => ?_) hrow
    obtain ⟨q', hq', -, -, hspares⟩ := hs μ hμ hne q hq (hd p q hq) hapart
    exact ⟨q', hq', hspares⟩
  have hkeeps := (keepsObjects_stripMeasure μ'.data).ends w₁
  -- if the deleted measure is the first one itself, there is nothing to be kept
  by_cases hlive : ∃ μ, m.measures.get? i = some μ ∧ i ≠ ref.index ∧ m.Disjoint i ref.index p
  · obtain ⟨μ, hμ, hne, hother⟩ := hlive
    have hspares := sparesAt_stripMeasure (α := α) (p := p) (l := μ.data.label) (μ := μ')
      fun hkind hp => ⟨hm _ _ hget' hp, hother μ μ' hμ hget' hne hp hkind⟩
    have left' : ∀ w' : Workspace α, w₁.KeepsObjects w' ∧ w₁.SparesAt p μ.data.label w' →
        m.Disjoins handle i p w'.model → w'.model.Contributes i p := by
      rintro w' ⟨hk, hs⟩
      refine gone w' hk fun _ => left w' hk fun μ₁ hμ₁ _ => ?_
      obtain rfl : μ = μ₁ := Option.some.inj (hμ.symm.trans hμ₁)
      exact hs
    exact (hkeeps.and (hspares.ends w₁)).mono (fun _ => left') left'
  · have left' : ∀ w' : Workspace α, w₁.KeepsObjects w' →
        m.Disjoins handle i p w'.model → w'.model.Contributes i p := fun w' hk =>
      gone w' hk fun hother => left w' hk fun μ hμ hne => absurd ⟨μ, hμ, hne, hother⟩ hlive
    exact hkeeps.mono (fun _ => left') left'

end Modeling

/-- Any request leaves the points of a measure in store that it spares. -/
theorem Request.contributes_perform (h : m.Contributes i p) (ha : m.Apart i p)
    (hd : ∀ p q, m.parameter (.given p) = .ok q → q.Derivable) (hm : m.StorableOver p)
    {request : Request α} (hs : request.SparesPoints i p m e) :
    (request.perform ⟨e, m⟩).Contributes i p := by
  have held : ∀ w' : Workspace α, Workspace.Spares ⟨e, m⟩ w' ∧ KeepsMeasures ⟨e, m⟩ w' →
      w'.model.Contributes i p := by
    rintro w' ⟨hspares, hsame⟩ μ row hμ hrow
    rw [hsame] at hμ
    exact h.of_spared ha hμ (hspares.under hd p _) hrow
  by_cases hmeasures : request.revisesMeasures = true
  · cases request with
    | addMeasure function data shaped name =>
      refine Request.of_ends (P := fun m' => m'.Apart i p → m'.Contributes i p) ?_ hs.apart
      rw [Request.operation, ends_bind]
      exact (Modeling.contributes_addMeasure h ha hd function shaped name).mono
        (fun _ _ h' => (ends_pure _).2 h') fun _ h' _ => h'
    | deleteMeasure handle =>
      refine Request.of_ends (P := fun m' => m.Disjoins handle i p m' → m'.Contributes i p)
        (Modeling.contributes_deleteMeasure h ha hd hm handle) ?_
      rintro ref rfl
      exact hs.disjoint ref rfl
    | _ => cases hmeasures
  · have htakes : request.takesAway = false := by
      cases request <;> first | rfl | exact absurd rfl hmeasures | cases hs.supports
    have hsame := request.keepsMeasures (by simpa using hmeasures)
    exact Request.of_ends (P := fun m' => m'.Contributes i p)
      (((request.spares_operation htakes ⟨e, m⟩).and (hsame.ends ⟨e, m⟩)).mono (fun _ => held) held)

/-- The points of a measure were stored with it, so its label can be stored. -/
theorem storableOver_of_requested (h : Requested m) (p : Ref) : m.StorableOver p := by
  induction h with
  | start id name => exact fun _ _ hμ => (by cases hμ)
  | @step m h e request ih =>
    by_cases hmeasures : request.revisesMeasures = true
    · cases request with
      | addMeasure function data shaped name =>
        refine Request.of_ends (P := fun m' => m'.StorableOver p) ?_
        rw [Request.operation, ends_bind]
        refine (Modeling.ends_addMeasure_contributes (w := ⟨e, m⟩)
          (Parameter.derivable_of_requested h) function shaped name p).mono ?_ ?_
        · rintro _ w' ⟨μ', hpush, rfl, hlabel, -⟩
          refine (ends_pure _).2 fun i μ hμ hp => ?_
          rw [hpush] at hμ
          rcases Table.get?_push hμ with hold | ⟨-, rfl⟩
          · exact ih i μ hold hp
          · exact hlabel hp
        · intro w' hsame i μ hμ
          rw [hsame] at hμ
          exact ih i μ hμ
      | deleteMeasure handle =>
        refine Request.of_ends (P := fun m' => m'.StorableOver p)
          (Modeling.ends_deleteMeasure_of ih fun ref μ' _ _ => ?_)
        let w₁ : Workspace α := ⟨e, { m with measures := m.measures.erase ref.index }⟩
        have left : ∀ w' : Workspace α, w₁.KeepsObjects w' → w'.model.StorableOver p := by
          intro w' hk i μ hμ
          rw [hk.objects.measures] at hμ
          exact ih i μ (Table.get?_of_get?_erase hμ).2
        exact ((Modeling.keepsObjects_stripMeasure μ'.data).ends w₁).mono (fun _ => left) left
      | _ => cases hmeasures
    · have kept : ∀ w' : Workspace α, KeepsMeasures ⟨e, m⟩ w' → w'.model.StorableOver p := by
        intro w' hsame i μ hμ
        rw [hsame] at hμ
        exact ih i μ hμ
      have hsame := request.keepsMeasures (by simpa using hmeasures)
      exact Request.of_ends (P := fun m' => m'.StorableOver p)
        ((hsame.ends ⟨e, m⟩).mono (fun _ => kept) kept)

end Steps

/-- The points of every live measure are stored on its parameters, as long as no supports are
deleted or replaced on purpose, nor with another measure over the parameter that has the same label
and goes, and the derived supports of the parameter have another one all along. -/
theorem contributes_of_requestedBy [LawfulScalar α] {m : Model α} {i : Int} {p : Ref}
    (h : RequestedBy (Request.SparesPoints i p) m) : m.Contributes i p := by
  -- being apart before a request is needed for the points to be stored after it
  suffices hkept : m.Contributes i p ∧ m.Apart i p from hkept.1
  induction h with
  | start id name => exact ⟨fun _ _ hμ => (by cases hμ), fun _ _ hμ => (by cases hμ)⟩
  | step h hs ih =>
    have hd := Parameter.derivable_of_requested h.requested
    have hm := storableOver_of_requested h.requested p
    exact ⟨Request.contributes_perform ih.1 ih.2 hd hm hs, hs.apart⟩

/-- One of three measures is deleted, another one with the label of the first is not since it is in
use, and derived supports are added, taken away and added again. -/
theorem contributes_of_requestedBy_other :
    let p : Ref := ⟨0, .parameter, 1⟩
    let x : Ref := ⟨0, .infiniteVariable, 1⟩
    let data : MeasureData ℚ :=
      ⟨[p], [1 / 2, 1 / 2], [[1 / 4, 1 / 3]], [], .ofMeasure 1, .unit, "mean"⟩
    let m : Model ℚ := Request.replay { id := 0 }
      [.addParameter (.scalar (.interval 0 1)) "t" (some [0, 1]) 0 (some 6)
        (.orthogonalCollocation 3),
      .addInfiniteVariable "x" [.given p] none none .none false,
      .addMeasure (.given x) data ⟨rfl, by decide⟩ "first",
      .addMeasure (.given x) { data with label := .ofMeasure 2 } ⟨rfl, by decide⟩ "second",
      .addMeasure (.given x) data ⟨rfl, by decide⟩ "third",
      .addConstraint [(1, .given ⟨0, .measure, 3⟩)] "<=" 1 "cap" [],
      .addGenerativeSupports p,
      .deleteMeasure (.given ⟨0, .measure, 2⟩),
      .deleteMeasure (.given ⟨0, .measure, 3⟩),
      .addSupports p [3 / 4] (.given .userDefined) true,
      .build none]
    RequestedBy (Request.SparesPoints 1 p) m ∧
      (m.measures.get? 1).any (·.data.supports == [[1 / 4, 1 / 3]]) = true ∧
      (m.measures.get? 3).any (·.data.label == data.label) = true ∧ m.Contributes 1 p := by
  intro p x data m
  have hr : RequestedBy (Request.SparesPoints 1 p) m :=
    .replay_of_allows (.start 0 "model") (by decide +kernel)
  exact ⟨hr, by decide +kernel, by decide +kernel, contributes_of_requestedBy hr⟩

/-- Whether the only point of a measure is stored nowhere under its label can be computed. -/
theorem Model.not_contributes [DecidableEq α] {m : Model α} {i : Int} {p : Ref} (x : α)
    (h : (m.parameter (.given p)).toOption.any (fun q => (m.measures.get? i).any fun μ =>
      decide (μ.data.parameters.zip μ.data.supports = [(p, [x])] ∧
        ∀ s ∈ q.supports.supports, μ.data.label ∉ s.labels)) = true) : ¬ m.Contributes i p := by
  intro hstores
  obtain ⟨q, hq, hnone⟩ := (Option.any_eq_true _ _).1 h
  obtain ⟨μ, hμ, hnone⟩ := (Option.any_eq_true _ _).1 hnone
  obtain ⟨hrow, hnone⟩ := of_decide_eq_true hnone
  obtain ⟨q', rounded, hq', hr, hstored⟩ := hstores μ [x] hμ (by simp [hrow])
  obtain rfl : q' = q := by simpa [hq', Except.toOption] using hq
  obtain ⟨y, hy, -⟩ := exists_right_of_mem (roundList_eq_ok.1 hr).2 List.mem_cons_self
  obtain ⟨_, ⟨s, hs, -, hl⟩, -⟩ := hstored y hy
  exact hnone s hs hl

/-- If the points of a measure have the label of the nodes of a collocation, they are taken away
with them. -/
theorem not_contributes_of_requestedBy :
    ¬ ∀ (m : Model Float) (i : Int) (p : Ref),
      RequestedBy (fun _ _ request => request.replacesSupports = false) m → m.Contributes i p := by
  intro hall
  let p : Ref := ⟨0, .parameter, 1⟩
  let x : Ref := ⟨0, .infiniteVariable, 1⟩
  let data : MeasureData Float := ⟨[p], [1], [[0.25]], [], .collocation, .unit, "point"⟩
  let m : Model Float := Request.replay { id := 0 }
    [.addParameter (.scalar (.interval 0 1)) "t" (some [0, 1]) 0 (some 12)
      (.orthogonalCollocation 3),
    .addInfiniteVariable "x" [.given p] none none .none false,
    .addMeasure (.given x) data ⟨rfl, by decide⟩ "value",
    .addGenerativeSupports p,
    .addSupports p [0.75] (.given .userDefined) true]
  have hr : RequestedBy (fun _ _ request => request.replacesSupports = false) m :=
    .replay_of_allows (.start 0 "model") (by decide +kernel)
  have hgone : ¬ m.Contributes 1 p := Model.not_contributes 0.25 (by decide +kernel)
  exact hgone (hall m 1 p hr)

/-- If two measures have the same label, deleting one takes the points of the other away. -/
theorem not_contributes_of_requestedBy_shared :
    let p : Ref := ⟨0, .parameter, 1⟩
    let x : Ref := ⟨0, .infiniteVariable, 1⟩
    let data : MeasureData Float := ⟨[p], [1], [[0.25]], [], .ofMeasure 1, .unit, "point"⟩
    let m : Model Float := Request.replay { id := 0 }
      [.addParameter (.scalar (.interval 0 1)) "t" (some [0, 1]) 0 (some 12)
        (.finiteDifference .backward),
      .addInfiniteVariable "x" [.given p] none none .none false,
      .addMeasure (.given x) data ⟨rfl, by decide⟩ "value",
      .addMeasure (.given x) data ⟨rfl, by decide⟩ "same",
      .deleteMeasure (.given ⟨0, .measure, 2⟩)]
    RequestedBy (fun _ _ request => request.replacesSupports = false) m ∧ ¬ m.Contributes 1 p := by
  intro p x data m
  have hr : RequestedBy (fun _ _ request => request.replacesSupports = false) m :=
    .replay_of_allows (.start 0 "model") (by decide +kernel)
  exact ⟨hr, Model.not_contributes 0.25 (by decide +kernel)⟩

end Discretization
