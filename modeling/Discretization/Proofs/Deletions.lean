import Discretization.Proofs.Atomicity
import Discretization.Proofs.Selections
import Discretization.Proofs.Stencils

/-!
# What a Deletion Takes Away

Deleting a label takes it off every support of a parameter, together with the label of derived
supports in place, and a support without another label goes. A query with the deleted label finds
nothing afterwards, whichever way it is answered. Everything that was built from the supports goes
as well, and no other parameter changes.

A deletion looks the label of derived supports up after it dropped the stored equations, and the
deletion of a measure does so for one measured parameter after the other. So where a parameter does
not say how its supports are derived, the deletion stops halfway. In all other cases it either
succeeds or changes nothing.

## Main definitions

* `Parameter.discards`: the labels that a deletion takes off;
* `Model.Deleted`: a label was deleted from the supports of a parameter, and nothing else happened;
* `Request.Halts`: a deletion stops halfway.

## Main results

* `deleted_of_delete`: what deleting a label does, and when all supports are refused;
* `unchanged_iff_of_requested`: a deletion that fails leaves the model as it was exactly if it does
  not stop halfway.
-/

namespace Discretization

variable {α : Type} [Scalar α]

open Operation

/-! ## Labels that are taken off -/

omit [Scalar α] in
/-- Where every support has a label, a value is stored just if it is stored under some label. -/
theorem SupportMap.mem_values_iff {m : SupportMap α} (h : ∀ s ∈ m.supports, s.Labelled) {x : α} :
    x ∈ m.values ↔ ∃ l, m.Stores x l := by
  constructor
  · intro hx
    obtain ⟨s, hs, rfl⟩ := List.mem_map.1 hx
    obtain ⟨l, hl⟩ := List.exists_mem_of_ne_nil _ (h s hs).nonempty
    exact ⟨l, s, hs, rfl, hl⟩
  · rintro ⟨l, s, hs, rfl, -⟩
    exact List.mem_map_of_mem hs

namespace Parameter

variable {q q' : Parameter α}

omit [Scalar α] in
/-- A query counts what it selects. -/
theorem length_selected [Scalar α] (q : Parameter α) (label : Label) :
    (q.selected label).length = q.count label := by
  rw [selected, count]
  split
  · exact List.length_map _
  · exact List.length_map _

/-- Whether deleting a label takes the label `l` off the supports: the deleted label covers it, or
the label of derived supports in place does. -/
def discards (q : Parameter α) (label l : Label) : Bool :=
  label.covers l || (q.hasGenerative && q.info.label.toOption.any (·.covers l))

omit [Scalar α] in
theorem coveredBy_selectors {label derived : Label} (h : q.info.label = .ok derived) (l : Label) :
    Label.coveredBy (Store.selectors q label derived) l = q.discards label l := by
  rw [Store.selectors, discards, h]
  by_cases hsame : derived = label
  · subst hsame
    simp [Label.coveredBy, Except.toOption]
  · cases q.hasGenerative <;> simp [Label.coveredBy, Except.toOption, hsame]

/-- The second parameter is what is left of the first when a label is deleted. -/
structure Loses (label : Label) (q q' : Parameter α) : Prop where
  /-- A value is still stored if it carried a label that is not taken off. -/
  stored : ∀ x, x ∈ q'.supports.values ↔ ∃ l, q.supports.Stores x l ∧ q.discards label l = false
  /-- It carries exactly those labels. -/
  labels : ∀ x l, q'.supports.Stores x l ↔ q.supports.Stores x l ∧ q.discards label l = false
  generative : q'.hasGenerative = false
  equations : q'.hasEquations = false

/-- A query with the deleted label finds nothing. -/
theorem Loses.selected_eq_nil [LawfulScalar α] {label : Label} (h : q.Loses label q')
    (hq' : q'.Selectable) : q'.selected label = [] := by
  rw [hq'.selected_eq, List.filter_eq_nil_iff]
  intro x hx hcarries
  obtain ⟨s, hs, hboth⟩ := List.any_eq_true.1 hcarries
  obtain ⟨l, hl, hcovers⟩ := List.any_eq_true.1 (Bool.and_eq_true_iff.1 hboth).2
  have hkept := ((h.labels s.value l).1 ⟨s, hs, rfl, hl⟩).2
  rw [discards, hcovers] at hkept
  cases hkept

end Parameter

/-! ## Deleting a label -/

/-- A label was deleted from the supports of a parameter: these have lost it, queries with it find
nothing, what was built from the supports is gone, and other parameters are as they were. -/
structure Model.Deleted (p : Ref) (label : Label) (m m' : Model α) : Prop where
  parameter : ∃ q q', m.parameter (.given p) = .ok q ∧ m'.parameter (.given p) = .ok q' ∧
    q.Loses label q'
  count : m'.supportCount p label = .ok 0
  supports : m'.supports p label = .ok []
  unevaluated : ∀ d object, m'.derivative d = .ok object → object.parameter = p →
    m'.equations? d.index = none
  others : ∀ p', p' ≠ p → ∀ q, m'.parameter (.given p') = .ok q ↔ m.parameter (.given p') = .ok q

namespace Store

variable {w : Workspace α} {p : Ref} {q : Parameter α} {label : Label}

/-- Deleting all supports is refused where a measure or a derivative depends on the parameter. -/
theorem delete_all_of_used (hq : w.model.parameter (.given p) = .ok q)
    (hused : w.model.usedByMeasure p = true ∨ w.model.usedByDerivative p = true) :
    ∃ error : Error α, error.category = .invariant ∧ delete p .all w = .error error w := by
  unfold delete
  rw [query_bind_eq hq, model_bind_eq, if_pos rfl]
  -- a measure is looked for first
  cases hmeasured : w.model.usedByMeasure p with
  | true => exact ⟨.measuredSupports q.name, rfl, by rw [if_pos rfl]; rfl⟩
  | false =>
    have hderived := hused.resolve_left (by simp [hmeasured])
    refine ⟨.derivedSupports q.name, rfl, ?_⟩
    rw [if_neg Bool.false_ne_true, hderived, if_pos rfl]
    rfl

/-- Otherwise all supports go. -/
theorem ends_delete_all_unused (hc : w.model.Consistent)
    (hq : w.model.parameter (.given p) = .ok q) (hmeasured : w.model.usedByMeasure p = false)
    (hderived : w.model.usedByDerivative p = false) :
    Ends (delete p .all) w
      (fun _ w' => w'.model.Unevaluated p ∧ ∃ q', w'.model.parameter (.given p) = .ok q' ∧
        q'.supports = .empty ∧ q'.hasGenerative = false ∧ q'.hasEquations = false)
      fun _ => False := by
  -- both branches empty the parameter, one of them after it has lost its equations
  have emptied : ∀ w₁, Cleared p q w w₁ → ∀ f : Parameter α → Parameter α,
      ((w₁.model.modifyParameter p f).markStaleIfUsed p).Unevaluated p ∧
        ((w₁.model.modifyParameter p f).markStaleIfUsed p).parameter (.given p) =
          .ok (f { q with hasEquations := false }) := by
    intro w₁ hcleared f
    have hu := hcleared.unevaluated fun hflag => hc.unevaluated hq hflag
    exact ⟨(hu.of_objects (Model.sameObjects_modifyParameter _ p f) fun _ => rfl).markStaleIfUsed p,
      (Model.parameter_markStaleIfUsed _).trans
        (Model.parameter_modifyParameter hcleared.parameter f)⟩
  unfold delete
  rw [ends_bind, ends_query]
  refine ⟨fun q₀ hq₀ => ?_, fun e he => by rw [hq] at he; cases he⟩
  obtain rfl : q = q₀ := Except.ok.inj (hq.symm.trans hq₀)
  simp only [ends_bind, ends_model, ends_ite, hmeasured, hderived, if_true, ends_warn,
    ends_modifyModel, Bool.false_eq_true, false_implies, true_and, not_false_eq_true, true_implies]
  refine ⟨fun hset => ?_, fun hunset => ?_⟩
  · obtain ⟨hu, hq'⟩ := emptied _ (cleared_dropEquationsOf hq hset .equationsDeleted) fun q =>
      { q with supports := .empty, hasGenerative := false, hasInternal := false }
    exact ⟨hu, _, hq', rfl, rfl, rfl⟩
  · obtain ⟨hu, hq'⟩ := emptied w (cleared_of_no_equations hq (by simpa using hunset)) fun q =>
      { q with supports := .empty, hasGenerative := false, hasInternal := false }
    exact ⟨hu, _, hq', rfl, rfl, rfl⟩

/-- Where the label of derived supports is not known, a deletion stops after it dropped the stored
equations. -/
theorem ends_delete_unknown (hq : w.model.parameter (.given p) = .ok q) (hl : label ≠ .all)
    {error : Error α} (hunknown : q.info.label = .error error) :
    Ends (delete p label) w (fun _ _ => False) fun w' =>
      w'.model = if q.hasEquations then w.model.dropEquationsOf p else w.model := by
  unfold delete
  rw [ends_bind, ends_query]
  refine ⟨fun q₀ hq₀ => ?_, fun e he => by rw [hq] at he; cases he⟩
  obtain rfl : q = q₀ := Except.ok.inj (hq.symm.trans hq₀)
  simp only [ends_bind, ends_model, ends_ite, ends_check, ends_modifyModel, ends_warn, hl, if_false,
    hunknown, reduceCtorEq, false_implies, implies_true, true_and, Except.error.injEq, forall_eq']
  exact ⟨fun hset => (if_pos hset).symm, fun hunset => (if_neg hunset).symm⟩

/-- Where the label of derived supports is known, a deletion takes off what it is to take off. -/
theorem ends_delete_known [LawfulScalar α] (hc : w.model.Consistent)
    (hq : w.model.parameter (.given p) = .ok q) (hordered : Increasing q.supports.values)
    (hlabelled : ∀ s ∈ q.supports.supports, s.Labelled) (hl : label ≠ .all) {derived : Label}
    (hknown : q.info.label = .ok derived) :
    Ends (delete p label) w
      (fun _ w' => w'.model.Unevaluated p ∧ ∃ q', w'.model.parameter (.given p) = .ok q' ∧
        q.Loses label q' ∧ Increasing q'.supports.values ∧ ∀ s ∈ q'.supports.supports, s.Labelled)
      fun _ => False := by
  refine ends_delete hl (fun e he => by rw [hq] at he; cases he) fun q₀ w₁ hq₀ hcleared => ?_
  obtain rfl : q = q₀ := Except.ok.inj (hq.symm.trans hq₀)
  refine ⟨fun e he => (by rw [hknown] at he; cases he),
    fun derived' hd supports failed hstrip => ?_⟩
  obtain rfl : derived = derived' := Except.ok.inj (hknown.symm.trans hd)
  -- increasing supports can always be stripped
  obtain rfl : failed = none := by rw [SupportMap.strip_eq hordered] at hstrip; cases hstrip; rfl
  obtain rfl : (q.supports.strip (selectors q label derived)).1 = supports := by rw [hstrip]
  have hu := hcleared.unevaluated fun hflag => hc.unevaluated hq hflag
  let f (q₁ : Parameter α) : Parameter α :=
    { q₁ with
      supports := (q.supports.strip (selectors q label derived)).1, hasGenerative := false }
  let g (q₁ : Parameter α) : Parameter α :=
    { q₁ with
      hasInternal := q₁.hasInternal &&
        (q.supports.strip (selectors q label derived)).1.hasInternal }
  have hq₂ := Model.parameter_modifyParameter hcleared.parameter f
  have hq₃ := Model.parameter_modifyParameter hq₂ g
  have ho : w₁.model.SameObjects ((w₁.model.modifyParameter p f).modifyParameter p g) :=
    (Model.sameObjects_modifyParameter _ p f).trans (Model.sameObjects_modifyParameter _ p g)
  -- taken off is what the selectors cover
  have hstores : ∀ x l, (q.supports.strip (selectors q label derived)).1.Stores x l ↔
      q.supports.Stores x l ∧ q.discards label l = false := fun x l => by
    rw [SupportMap.stores_strip_iff hordered, Parameter.coveredBy_selectors hknown]
  have hleft := SupportMap.labelled_strip hlabelled (selectors q label derived)
  exact ⟨nofun, fun _ => ⟨(hu.of_objects ho fun _ => rfl).markStaleIfUsed p, _,
    (Model.parameter_markStaleIfUsed _).trans hq₃,
    ⟨fun x => (SupportMap.mem_values_iff hleft).trans (exists_congr (hstores x)), hstores, rfl,
      rfl⟩,
    SupportMap.increasing_strip hordered _, hleft⟩⟩

/-- Supports are deleted only from a live parameter. -/
theorem live_of_delete {w' : Workspace α} (hrun : delete p label w = .ok () w') :
    ∃ q, w.model.parameter (.given p) = .ok q := by
  have hends : Ends (delete p label) w
      (fun _ _ => ∃ q, w.model.parameter (.given p) = .ok q) fun _ => True := by
    unfold delete
    rw [ends_bind, ends_query]
    exact ⟨fun q hq => .of_forall (fun _ _ => ⟨q, hq⟩) fun _ => trivial, fun _ _ => trivial⟩
  exact hends.of_ok hrun

/-- A deletion that succeeds takes off what it is to take off. -/
theorem ends_delete_loses [LawfulScalar α] (hc : w.model.Consistent)
    (hq : w.model.parameter (.given p) = .ok q) (hordered : Increasing q.supports.values)
    (hlabelled : ∀ s ∈ q.supports.supports, s.Labelled) (label : Label) :
    Ends (delete p label) w
      (fun _ w' => w'.model.Unevaluated p ∧ ∃ q', w'.model.parameter (.given p) = .ok q' ∧
        q.Loses label q')
      fun _ => True := by
  by_cases hl : label = .all
  · subst hl
    -- used supports are not deleted as a whole, and then there is nothing to show
    by_cases hused : w.model.usedByMeasure p = true ∨ w.model.usedByDerivative p = true
    · obtain ⟨error, -, hrun⟩ := delete_all_of_used hq hused
      exact .of_run (fun _ _ hok => by rw [hrun] at hok; cases hok) fun _ _ _ => trivial
    · rw [not_or, Bool.not_eq_true, Bool.not_eq_true] at hused
      refine (ends_delete_all_unused hc hq hused.1 hused.2).mono ?_ fun _ h => h.elim
      rintro _ w' ⟨hu, q', hq', hnone, hgenerative, hequations⟩
      have hall : ∀ l, q.discards .all l = true := fun l => rfl
      refine ⟨hu, q', hq', ⟨fun x => ?_, fun x l => ?_, hgenerative, hequations⟩⟩
      all_goals simp [hall, hnone, SupportMap.Stores, SupportMap.values, SupportMap.empty]
  · cases hknown : q.info.label with
    | error e =>
      exact (ends_delete_unknown hq hl hknown).mono (fun _ _ h => h.elim) fun _ _ => trivial
    | ok derived =>
      refine (ends_delete_known hc hq hordered hlabelled hl hknown).mono ?_ fun _ h => h.elim
      rintro _ w' ⟨hu, q', hq', hloses, -, -⟩
      exact ⟨hu, q', hq', hloses⟩

end Store

/-- What deleting a label does to a model without undefined supports. All supports are refused
exactly where a measure or a derivative depends on the parameter, which changes nothing; that is the
only way in which deleting all of them fails. -/
theorem deleted_of_delete [LawfulScalar α] {m : Model α} (h : Requested m) (hdef : m.Defined)
    (p : Ref) (e : Environment α) :
    (∀ label w', Store.delete p label ⟨e, m⟩ = .ok () w' → m.Deleted p label w'.model) ∧
    ∀ q, m.parameter (.given p) = .ok q →
      ((∃ error, error.category = .invariant ∧
          Store.delete p .all ⟨e, m⟩ = .error error ⟨e, m⟩) ↔
        (∃ μ ∈ m.measures.objects, p ∈ μ.data.parameters) ∨
          ∃ d ∈ m.derivatives.objects, d.parameter = p) ∧
      ∀ error w', Store.delete p .all ⟨e, m⟩ = .error error w' →
        error.category = .invariant ∧ w' = ⟨e, m⟩ := by
  refine ⟨fun label w' hrun => ?_, fun q hq => ?_⟩
  · obtain ⟨q, hq⟩ := Store.live_of_delete hrun
    have htidy := Parameter.tidy_of_requested h p q hq
    obtain ⟨hu, q', hq', hloses⟩ := (Store.ends_delete_loses (w := ⟨e, m⟩) h.consistent hq
      (htidy.ordered (hdef p q hq)) htidy.labelled label).of_ok hrun
    have ht := ((Store.moves_delete p label).ends ⟨e, m⟩).of_ok hrun
    -- the model afterwards came about by requests as well
    have hrequest : (Request.deleteSupports p label).operation ⟨e, m⟩ = .ok () w' := hrun
    have hstep : Requested w'.model := h.of_run hrequest
    have htidy' := Parameter.tidy_of_requested hstep p q' hq'
    have hdef' : ∀ x ∈ q'.supports.values, Scalar.Defined x := fun x hx => by
      obtain ⟨l, hl, -⟩ := (hloses.stored x).1 hx
      exact hdef p q hq x ((SupportMap.mem_values_iff htidy.labelled).2 ⟨l, hl⟩)
    have hnil := hloses.selected_eq_nil ⟨htidy'.ordered hdef', htidy'.labelled,
      Parameter.hides_of_requested hstep p q' hq'⟩
    refine ⟨⟨q, q', hq, hq', hloses⟩, ?_, ?_, fun d object hd hp => ?_, fun p' hp' q₁ => ?_⟩
    · rw [Model.supportCount, hq']
      change Except.ok (q'.count label) = _
      rw [← q'.length_selected, hnil]
      rfl
    · rw [Model.supports, hq']
      change Except.ok (q'.selected label) = _
      rw [hnil]
    · obtain ⟨-, -, hfound⟩ := Model.derivative_eq_ok.1 hd
      obtain ⟨d', hd', hindex⟩ :=
        (Model.mem_derivativesOf hstep.consistent.derivatives hfound).2 hp
      exact hindex ▸ hu d' hd'
    · exact ⟨fun hq₁ => (ht.model.parameter_of_ne (Model.index_ne hq' hq₁ hp')).1 hq₁,
        fun hq₁ => (ht.model.parameter_of_ne (Model.index_ne hq hq₁ hp')).2 hq₁⟩
  · have hused : ((∃ μ ∈ m.measures.objects, p ∈ μ.data.parameters) ∨
        ∃ d ∈ m.derivatives.objects, d.parameter = p) ↔
        m.usedByMeasure p = true ∨ m.usedByDerivative p = true := by
      simp only [Model.usedByMeasure, Model.usedByDerivative, List.any_eq_true, decide_eq_true_eq]
    rw [hused]
    by_cases h' : m.usedByMeasure p = true ∨ m.usedByDerivative p = true
    · obtain ⟨error, hcategory, hrun⟩ := Store.delete_all_of_used (w := ⟨e, m⟩) hq h'
      refine ⟨iff_of_true ⟨error, hcategory, hrun⟩ h', fun error' w' hrun' => ?_⟩
      rw [hrun] at hrun'
      cases hrun'
      exact ⟨hcategory, rfl⟩
    · rw [not_or, Bool.not_eq_true, Bool.not_eq_true] at h'
      have hends := Store.ends_delete_all_unused (w := ⟨e, m⟩) h.consistent hq h'.1 h'.2
      refine ⟨iff_of_false ?_ (by simp [h'.1, h'.2]), fun _ _ hrun => (hends.of_error hrun).elim⟩
      rintro ⟨_, _, hrun⟩
      exact hends.of_error hrun

/-- Collocation with derived supports in place, one of which is given by a point variable too. The
visible labels are deleted, and only a support with another internal label is left. -/
theorem deleted_of_delete_visible :
    let p : Ref := ⟨0, .parameter, 1⟩
    let x : Ref := ⟨0, .infiniteVariable, 1⟩
    let data : MeasureData ℚ :=
      { parameters := [p], coefficients := [1], supports := [[1]], inner := [],
        label := .ofMeasure 1, weight := .unit, name := "mean" }
    let kept : Label := { kind := .uniqueMeasure, measure := some 1, internal := true }
    let m : Model ℚ := Request.replay { id := 0 }
      [.addParameter (.scalar (.interval 0 1)) "t" (some [0, 1]) 0 (some 6)
        (.orthogonalCollocation 3),
      .addInfiniteVariable "x" [.given p] none none .none false,
      .addMeasure (.given x) data ⟨rfl, by simp [data]⟩ "m",
      .addGenerativeSupports p,
      .addPointVariable (.given x) [1 / 2] "half",
      .addSupports p [0] (.given kept) true]
    Requested m ∧ m.Defined ∧ ∃ w', Store.delete p .visible ⟨{}, m⟩ = .ok () w' ∧
      m.Deleted p .visible w'.model ∧ (w'.model.supports p .all).toOption = some [0] ∧
      ∃ error, error.category = .invariant ∧
        Store.delete p .all ⟨{}, m⟩ = .error error ⟨{}, m⟩ := by
  intro p x data kept m
  have hr : Requested m := .replay (.start 0 "model") _
  have hdef : m.Defined := Model.defined_of_allDefined (by decide +kernel)
  obtain ⟨q, hq, -⟩ := Except.exists_of_decide (x := m.parameter (.given p))
    (fun q => q.hasGenerative = true) (by decide +kernel)
  have hends : Ends (Store.delete p .visible) ⟨{}, m⟩
      (fun _ w' => (w'.model.supports p .all).toOption = some [0]) fun _ => False := by
    decide +kernel
  obtain ⟨_, w', hrun, hleft⟩ := hends.exists_ok
  obtain ⟨hdeleted, hrefused⟩ := deleted_of_delete hr hdef p {}
  refine ⟨hr, hdef, w', hrun, hdeleted .visible w' hrun, hleft, ?_⟩
  have hmeasured : ∃ μ ∈ m.measures.objects, p ∈ μ.data.parameters := by decide +kernel
  exact (hrefused q hq).1.2 (.inl hmeasured)

/-! ## Deletions that stop halfway -/

omit [Scalar α] in
/-- Only where nothing is known about derived supports they have no label. -/
theorem GenerativeInfo.label_eq_error_iff {info : GenerativeInfo α} :
    (∃ error, info.label = .error error) ↔ info = .undefined := by
  cases info with
  | undefined => exact iff_of_true ⟨_, rfl⟩ rfl
  | none | uniform => exact iff_of_false (fun ⟨_, h⟩ => nomatch h) nofun

namespace Parameter

variable {q q' q'' : Parameter α} {label : Label}

omit [Scalar α] in
/-- Deleting a label once more takes nothing off. -/
theorem Loses.trans (h : q.Loses label q') (h' : q'.Loses label q'') : q.Loses label q'' := by
  have hagain : ∀ x l, q.supports.Stores x l ∧ q.discards label l = false →
      q'.discards label l = false := fun x l hl => by
    have hcovers := (Bool.or_eq_false_iff.1 hl.2).1
    rw [discards, hcovers, h.generative]
    rfl
  have hlabels : ∀ x l, q'.supports.Stores x l ∧ q'.discards label l = false ↔
      q.supports.Stores x l ∧ q.discards label l = false := fun x l => by
    rw [h.labels]
    exact ⟨fun hl => hl.1, fun hl => ⟨hl, hagain x l hl⟩⟩
  exact ⟨fun x => (h'.stored x).trans (exists_congr (hlabels x)),
    fun x l => (h'.labels x l).trans (hlabels x l), h'.generative, h'.equations⟩

end Parameter

namespace Model

/-- A label was taken off some parameters, whose derived supports have a label, and everything else
but stored equations is as before. -/
structure Stripped (label : Label) (gone : List Ref) (m m' : Model α) : Prop where
  objects : m.SameObjects m'
  consistent : m'.Consistent
  known : ∀ p ∈ gone, ∃ q, m.parameter (.given p) = .ok q ∧ q.info ≠ .undefined
  parameter : ∀ p q, m.parameter (.given p) = .ok q → ∃ q', m'.parameter (.given p) = .ok q' ∧
    q'.info = q.info ∧ Increasing q'.supports.values ∧ (∀ s ∈ q'.supports.supports, s.Labelled) ∧
      (p ∈ gone → q.Loses label q') ∧ (p ∉ gone → q' = q)

/-- A label was taken off some parameters, and at the next one the deletion stopped, since its
derived supports have no label. -/
structure Halted (label : Label) (gone : List Ref) (p : Ref) (m m' : Model α) : Prop where
  lost : ∀ p' ∈ gone, ∃ q q', m.parameter (.given p') = .ok q ∧
    m'.parameter (.given p') = .ok q' ∧ q.Loses label q'
  stopped : ∃ q, m.parameter (.given p) = .ok q ∧ q.info = .undefined ∧
    m'.parameter (.given p) = .ok { q with hasEquations := false }
  others : ∀ p', p' ∉ gone → p' ≠ p → ∀ q, m'.parameter (.given p') = .ok q ↔
    m.parameter (.given p') = .ok q

/-- A parameter that was not reached is the same before and after. -/
theorem Stripped.parameter_of_not_mem {label : Label} {gone : List Ref} {m m' : Model α}
    (h : m.Stripped label gone m') {p : Ref} (hp : p ∉ gone) {q : Parameter α} :
    m'.parameter (.given p) = .ok q ↔ m.parameter (.given p) = .ok q := by
  constructor
  · intro hq
    obtain ⟨q₀, hq₀⟩ := h.objects.symm.parameter hq
    obtain ⟨q₁, hq₁, -, -, -, -, hkept⟩ := h.parameter p q₀ hq₀
    rw [hkept hp, hq] at hq₁
    rwa [← Except.ok.inj hq₁] at hq₀
  · intro hq
    obtain ⟨q₁, hq₁, -, -, -, -, hkept⟩ := h.parameter p q hq
    rwa [hkept hp] at hq₁

end Model

namespace Store

variable [LawfulScalar α] {w w₁ : Workspace α} {p : Ref} {q : Parameter α} {label : Label}
  {gone : List Ref}

omit [LawfulScalar α] in
/-- A parameter whose derived supports have no label stops the deletion. -/
theorem ends_delete_halted (hl : label ≠ .all) (h : w.model.Stripped label gone w₁.model)
    (hq : w.model.parameter (.given p) = .ok q) (hundefined : q.info = .undefined) :
    Ends (delete p label) w₁ (fun _ _ => False)
      fun w' => w.model.Halted label gone p w'.model := by
  -- the label was not taken off this parameter before, so the parameter is still the same
  have hnew : p ∉ gone := fun hp => by
    obtain ⟨q', hq', hknown⟩ := h.known p hp
    obtain rfl : q = q' := Except.ok.inj (hq.symm.trans hq')
    exact hknown hundefined
  have hq₁ := (h.parameter_of_not_mem hnew).2 hq
  obtain ⟨error, hlabel⟩ := GenerativeInfo.label_eq_error_iff.2 hundefined
  refine (ends_delete_unknown hq₁ hl hlabel).mono (fun _ _ h => h.elim) fun w' hw' => ?_
  have ht : w₁.model.Touches p w'.model := by
    rw [hw']
    split
    · exact Model.touches_dropEquationsOf _ p
    · exact .refl _
  obtain ⟨q₂, hq₂, -⟩ := ht.parameter hq₁
  refine ⟨fun p' hp' => ?_, ⟨q, hq, hundefined, ?_⟩, fun p' hp' hne q' => ?_⟩
  · obtain ⟨q', hq', -⟩ := h.known p' hp'
    obtain ⟨q'', hq'', -, -, -, hlost, -⟩ := h.parameter p' q' hq'
    have hne : p' ≠ p := fun he => hnew (he ▸ hp')
    exact ⟨q', q'', hq', (ht.parameter_of_ne (Model.index_ne hq₁ hq'' hne)).2 hq'', hlost hp'⟩
  · by_cases hset : q.hasEquations = true
    · rw [hw', if_pos hset]
      exact Model.parameter_dropEquationsOf hq₁
    · rw [hw', if_neg hset, hq₁, ← Bool.eq_false_iff.2 hset]
  · rw [← h.parameter_of_not_mem hp']
    exact ⟨fun hq' => (ht.parameter_of_ne (Model.index_ne hq₂ hq' hne)).1 hq',
      fun hq' => (ht.parameter_of_ne (Model.index_ne hq₁ hq' hne)).2 hq'⟩

/-- Any other parameter loses the label, once or once more. -/
theorem ends_delete_lost (hl : label ≠ .all) (h : w.model.Stripped label gone w₁.model)
    (hq : w.model.parameter (.given p) = .ok q) {derived : Label}
    (hknown : q.info.label = .ok derived) :
    Ends (delete p label) w₁ (fun _ w' => w.model.Stripped label (gone ++ [p]) w'.model)
      fun _ => False := by
  obtain ⟨q₁, hq₁, hinfo, hordered, hlabelled, hlost, hkept⟩ := h.parameter p q hq
  refine (((ends_delete_known h.consistent hq₁ hordered hlabelled hl (hinfo ▸ hknown)).and
    ((moves_delete p label).ends w₁)).and (consistent_delete h.consistent p label)).mono ?_
    fun _ h => h.1.1
  rintro _ w' ⟨⟨⟨-, q', hq', hloses, hordered', hlabelled'⟩, ht⟩, hc, -⟩
  obtain ⟨q₂, hq₂, -, -, hinfo'⟩ := ht.model.parameter hq₁
  obtain rfl : q' = q₂ := Except.ok.inj (hq'.symm.trans hq₂)
  refine ⟨h.objects.trans ht.model.objects, hc, fun p' hp' => ?_, fun p' q₀ hq₀ => ?_⟩
  · rcases List.mem_append.1 hp' with hp' | hp'
    · exact h.known p' hp'
    · obtain rfl := List.mem_singleton.1 hp'
      exact ⟨q, hq, fun hundefined => by rw [hundefined] at hknown; cases hknown⟩
  · by_cases hp : p' = p
    · subst hp
      obtain rfl : q = q₀ := Except.ok.inj (hq.symm.trans hq₀)
      refine ⟨q', hq', hinfo'.trans hinfo, hordered', hlabelled', fun _ => ?_, fun hnew => ?_⟩
      · by_cases hbefore : p' ∈ gone
        · exact (hlost hbefore).trans hloses
        · exact hkept hbefore ▸ hloses
      · exact absurd (List.mem_append_right gone (List.mem_singleton_self p')) hnew
    · obtain ⟨q₂, hq₂, hinfo₂, hordered₂, hlabelled₂, hlost₂, hkept₂⟩ := h.parameter p' q₀ hq₀
      refine ⟨q₂, (ht.model.parameter_of_ne (Model.index_ne hq₁ hq₂ hp)).2 hq₂, hinfo₂, hordered₂,
        hlabelled₂, fun hp' => hlost₂ ?_,
        fun hp' => hkept₂ fun h => hp' (List.mem_append_left _ h)⟩
      exact (List.mem_append.1 hp').resolve_right fun h => hp (List.mem_singleton.1 h)

/-- The label is taken off one parameter more, unless its derived supports have no label. -/
theorem ends_delete_stripped (hl : label ≠ .all) (h : w.model.Stripped label gone w₁.model)
    (hq : w.model.parameter (.given p) = .ok q) :
    Ends (delete p label) w₁ (fun _ w' => w.model.Stripped label (gone ++ [p]) w'.model)
      fun w' => w.model.Halted label gone p w'.model := by
  cases hlabel : q.info.label with
  | error error =>
    exact (ends_delete_halted hl h hq (GenerativeInfo.label_eq_error_iff.1 ⟨error, hlabel⟩)).mono
      (fun _ _ h => h.elim) fun _ h => h
  | ok derived => exact (ends_delete_lost hl h hq hlabel).mono (fun _ _ h => h) fun _ h => h.elim

/-- Taking a label off one parameter after the other goes on to the first whose derived supports
have no label. -/
theorem ends_forIn_delete (hl : label ≠ .all) (h : w.model.Stripped label [] w.model)
    {parameters : List Ref}
    (hlive : ∀ p ∈ parameters, ∃ q, w.model.parameter (.given p) = .ok q) :
    Ends (forIn parameters PUnit.unit fun p _ => do
        Store.delete p label
        return .yield PUnit.unit) w
      (fun _ w' => w.model.Stripped label parameters w'.model)
      fun w' => w.model.SameObjects w'.model ∧ ∃ gone p rest, parameters = gone ++ p :: rest ∧
        w.model.Halted label gone p w'.model := by
  refine Ends.forIn (fun gone (w' : Workspace α) => w.model.Stripped label gone w'.model) h ?_
  intro gone p rest w₁ hparameters h₁
  obtain ⟨q, hq⟩ := hlive p (hparameters ▸ by simp)
  rw [ends_bind]
  refine ((ends_delete_stripped hl h₁ hq).and ((moves_delete p label).ends w₁)).mono
    (fun _ _ h' => (ends_pure _).2 ⟨rfl, h'.1⟩) fun (w' : Workspace α) h' => ?_
  exact ⟨h₁.objects.trans h'.2.model.objects, gone, p, rest, hparameters, h'.1⟩

end Store

namespace Request

/-- The requests that take labels off supports. -/
def Strips : Request α → Prop
  | deleteSupports _ _ | deleteMeasure _ => True
  | _ => False

/-- A deletion stops halfway: stored equations are dropped, or a measure is gone, before it turns
out that derived supports have no label. -/
def Halts (m : Model α) : Request α → Prop
  | deleteSupports p label => label ≠ .all ∧ ∃ q, m.parameter (.given p) = .ok q ∧
      q.info = .undefined ∧ q.hasEquations = true
  | deleteMeasure h => ∃ ref μ, m.ownedOf [.measure] h = .ok ref ∧ m.measure ref = .ok μ ∧
      m.checkUnreferenced ref μ.name [.measure, .constraint] = .ok () ∧
      μ.data.label.kind = .uniqueMeasure ∧ ∃ p ∈ μ.data.parameters, ∃ q,
        m.parameter (.given p) = .ok q ∧ q.info = .undefined
  | _ => False

/-- What a deletion that stops halfway leaves behind: a model without the stored equations, or one
without the measure, whose label was taken off some of its parameters only. -/
def Leaves (m m' : Model α) : Request α → Prop
  | deleteSupports p _ => m' = m.dropEquationsOf p
  | deleteMeasure h => ∃ ref μ gone p rest, m.ownedOf [.measure] h = .ok ref ∧
      m.measure ref = .ok μ ∧ m'.measures = m.measures.erase ref.index ∧
      μ.data.parameters = gone ++ p :: rest ∧ m.Halted μ.data.label gone p m'
  | _ => True

omit [Scalar α] in
/-- Whether the deletion of a measure stops halfway is about the measure that is found. -/
theorem halts_deleteMeasure_iff {m : Model α} {h : Handle} {ref : Ref} {μ : Measure α}
    (href : m.ownedOf [.measure] h = .ok ref) (hμ : m.measure ref = .ok μ) :
    (deleteMeasure h).Halts m ↔
      m.checkUnreferenced ref μ.name [.measure, .constraint] = .ok () ∧
        μ.data.label.kind = .uniqueMeasure ∧ ∃ p ∈ μ.data.parameters, ∃ q,
          m.parameter (.given p) = .ok q ∧ q.info = .undefined := by
  refine ⟨?_, fun hrest => ⟨ref, μ, href, hμ, hrest⟩⟩
  rintro ⟨ref', μ', href', hμ', hrest⟩
  obtain rfl : ref = ref' := Except.ok.inj (href.symm.trans href')
  obtain rfl : μ = μ' := Except.ok.inj (hμ.symm.trans hμ')
  exact hrest

omit [Scalar α] in
/-- A deletion that stops halfway changes the model. -/
theorem Halts.ne_of_leaves {m m' : Model α} {request : Request α} (h : request.Halts m)
    (hleaves : request.Leaves m m') : m' ≠ m := by
  rintro rfl
  cases request with
  | deleteSupports p label =>
    -- the flag of stored equations went with them
    obtain ⟨-, q, hq, -, hset⟩ := h
    have hdropped := Model.parameter_dropEquationsOf hq
    rw [← show m' = m'.dropEquationsOf p from hleaves, hq, Except.ok.injEq] at hdropped
    rw [hdropped] at hset
    cases hset
  | deleteMeasure handle =>
    obtain ⟨ref, μ, -, -, -, -, hμ, herased, -⟩ := hleaves
    obtain ⟨-, -, hfound⟩ := Model.measure_eq_ok.1 hμ
    rw [herased, Table.get?_erase, if_pos rfl] at hfound
    cases hfound
  | _ => exact h

end Request

/-- Deleting a label stops halfway or changes nothing, if it fails. -/
theorem Store.ends_delete_whole [LawfulScalar α] {m : Model α} (h : Requested m) (hdef : m.Defined)
    (e : Environment α) (p : Ref) (label : Label) :
    Ends (delete p label) ⟨e, m⟩ (fun _ _ => ¬ (Request.deleteSupports p label).Halts m)
      fun w' => (Request.deleteSupports p label).Halts m ∧
          (Request.deleteSupports p label).Leaves m w'.model ∨
        ¬ (Request.deleteSupports p label).Halts m ∧ w'.model = m := by
  by_cases hlive : ∃ q, m.parameter (.given p) = .ok q
  on_goal 2 =>
    have never : ¬ (Request.deleteSupports p label).Halts m := fun ⟨_, q, hq, _⟩ => hlive ⟨q, hq⟩
    exact (ends_query_bind_of_missing fun q hq => hlive ⟨q, hq⟩).mono (fun _ _ _ => never)
      fun _ hw' => .inr ⟨never, hw' ▸ rfl⟩
  obtain ⟨q, hq⟩ := hlive
  by_cases hl : label = .all
  · subst hl
    have never : ¬ (Request.deleteSupports p .all).Halts m := fun hh => hh.1 rfl
    exact ends_delete_all (.inr ⟨never, rfl⟩) fun _ _ _ _ => never
  have htidy := Parameter.tidy_of_requested h p q hq
  cases hlabel : q.info.label with
  | error error =>
    have hundefined := GenerativeInfo.label_eq_error_iff.1 ⟨error, hlabel⟩
    refine (ends_delete_unknown (w := ⟨e, m⟩) hq hl hlabel).mono (fun _ _ h => h.elim)
      fun w' hw' => ?_
    -- without a label to take off it stops, but only after the equations are gone
    by_cases hset : q.hasEquations = true
    · exact .inl ⟨⟨hl, q, hq, hundefined, hset⟩, by rw [hw', if_pos hset]; rfl⟩
    · refine .inr ⟨?_, by rw [hw', if_neg hset]⟩
      rintro ⟨-, q', hq', -, hset'⟩
      obtain rfl : q = q' := Except.ok.inj (hq.symm.trans hq')
      exact hset hset'
  | ok derived =>
    refine (ends_delete_known (w := ⟨e, m⟩) h.consistent hq (htidy.ordered (hdef p q hq))
      htidy.labelled hl hlabel).mono (fun _ _ _ => ?_) fun _ h => h.elim
    rintro ⟨-, q', hq', hundefined, -⟩
    obtain rfl : q = q' := Except.ok.inj (hq.symm.trans hq')
    rw [hundefined] at hlabel
    cases hlabel

namespace Modeling

variable [LawfulScalar α]

/-- From a model without one of its measures, nothing is taken off yet. -/
theorem stripped_eraseMeasure {m : Model α} (h : Requested m) (hdef : m.Defined) (i : Int)
    (label : Label) : Model.Stripped label [] { m with measures := m.measures.erase i }
      { m with measures := m.measures.erase i } := by
  have hc : Model.Consistent { m with measures := m.measures.erase i } :=
    Model.Edits.consistent (m := m) (.other rfl rfl rfl rfl) h.consistent
  refine ⟨.refl _, hc, nofun, fun p q hq => ⟨q, hq, rfl, ?_, ?_, nofun, fun _ => rfl⟩⟩
  · exact (Parameter.tidy_of_requested h p q hq).ordered (hdef p q hq)
  · exact (Parameter.tidy_of_requested h p q hq).labelled

/-- Deleting a measure stops halfway or changes nothing, if it fails. -/
theorem ends_deleteMeasure {m : Model α} (h : Requested m) (hdef : m.Defined) (e : Environment α)
    (handle : Handle) :
    Ends (deleteMeasure handle) ⟨e, m⟩ (fun _ _ => ¬ (Request.deleteMeasure handle).Halts m)
      fun w' => (Request.deleteMeasure handle).Halts m ∧
          (Request.deleteMeasure handle).Leaves m w'.model ∨
        ¬ (Request.deleteMeasure handle).Halts m ∧ w'.model = m := by
  unfold deleteMeasure
  rw [ends_bind, ends_query]
  refine ⟨fun ref href => ?_, fun error herror => .inr ⟨?_, rfl⟩⟩
  on_goal 2 =>
    rintro ⟨ref, -, href, -⟩
    cases herror.symm.trans href
  rw [ends_bind, ends_query]
  refine ⟨fun μ hμ => ?_, fun error herror => .inr ⟨?_, rfl⟩⟩
  on_goal 2 =>
    rintro ⟨ref', μ, href', hμ, -⟩
    obtain rfl : ref = ref' := Except.ok.inj (href.symm.trans href')
    cases herror.symm.trans hμ
  rw [ends_bind, ends_query]
  obtain ⟨-, hfound⟩ := Model.measure_eq_ok.1 hμ
  have halts := Request.halts_deleteMeasure_iff href hμ
  refine ⟨fun _ hfree => ?_, fun error herror => .inr ⟨fun hh => ?_, rfl⟩⟩
  on_goal 2 => cases herror.symm.trans (halts.1 hh).1
  rw [ends_bind, ends_modifyModel]
  let erased : Model α := { m with measures := m.measures.erase ref.index }
  dsimp only
  rw [ends_ite]
  refine ⟨fun hkind => ?_, fun hkind => ?_⟩
  · have hl : μ.data.label ≠ .all := fun hl => by rw [hl] at hkind; cases hkind
    have hstripped : erased.Stripped μ.data.label [] erased := stripped_eraseMeasure h hdef _ _
    have hlive : ∀ p ∈ μ.data.parameters, ∃ q, erased.parameter (.given p) = .ok q := fun p hp =>
      Model.mem_liveRefs_parameter.1
        (h.intact.live_axes (Model.find?_eq_some (o := .measure μ).2 hfound) p hp)
    rw [ends_bind]
    refine (Store.ends_forIn_delete (w := ⟨e, erased⟩) hl hstripped hlive).mono ?_ ?_
    · rintro _ w' hall
      rw [ends_modifyModel]
      intro hh
      obtain ⟨-, -, p, hp, q, hq, hundefined⟩ := halts.1 hh
      obtain ⟨q', hq', hknown⟩ := hall.known p hp
      obtain rfl : q = q' := Except.ok.inj (hq.symm.trans hq')
      exact hknown hundefined
    · rintro w' ⟨ho, gone, p, rest, hparameters, hhalted⟩
      obtain ⟨q, hq, hundefined, -⟩ := hhalted.stopped
      exact .inl ⟨halts.2 ⟨hfree, hkind, p, hparameters ▸ by simp, q, hq, hundefined⟩,
        ref, μ, gone, p, rest, href, hμ, ho.measures, hparameters,
        ⟨hhalted.lost, hhalted.stopped, hhalted.others⟩⟩
  · rw [ends_modifyModel]
    exact fun hh => hkind (halts.1 hh).2.1

end Modeling

/-- A deletion that fails leaves a model without undefined supports as it was, unless it stops
halfway because derived supports have no label. Then it always fails, without the stored equations
or without the measure. -/
theorem unchanged_iff_of_requested [LawfulScalar α] {m : Model α} (h : Requested m)
    (hdef : m.Defined) {request : Request α} (hstrips : request.Strips) (e : Environment α) :
    (∀ error w', request.operation ⟨e, m⟩ = .error error w' →
      (w'.model = m ↔ ¬ request.Halts m)) ∧
    (request.Halts m → ∃ error w', request.operation ⟨e, m⟩ = .error error w' ∧
      request.Leaves m w'.model) := by
  -- both parts read off one statement about how a deletion ends
  have hends : Ends request.operation ⟨e, m⟩ (fun _ _ => ¬ request.Halts m) fun w' =>
      request.Halts m ∧ request.Leaves m w'.model ∨ ¬ request.Halts m ∧ w'.model = m := by
    cases request with
    | deleteSupports p label => exact Store.ends_delete_whole h hdef e p label
    | deleteMeasure handle => exact Modeling.ends_deleteMeasure h hdef e handle
    | _ => exact hstrips.elim
  refine ⟨fun error w' hrun => ?_, fun hh => ?_⟩
  · rcases hends.of_error hrun with ⟨hh, hleaves⟩ | ⟨hh, hsame⟩
    · exact iff_of_false (hh.ne_of_leaves hleaves) (not_not_intro hh)
    · exact iff_of_true hsame hh
  · cases hrun : request.operation ⟨e, m⟩ with
    | ok _ w' => exact absurd hh (hends.of_ok hrun)
    | error error w' =>
      exact ⟨error, w', rfl, ((hends.of_error hrun).resolve_right fun h => h.1 hh).2⟩

/-- A measure over two parameters, the second of which does not say how its supports are derived:
the deletion of the measure stops there. Deleting all supports of the first is refused as a
whole. -/
theorem unchanged_iff_of_requested_pair :
    let s : Ref := ⟨0, .parameter, 1⟩
    let t : Ref := ⟨0, .parameter, 2⟩
    let x : Ref := ⟨0, .infiniteVariable, 1⟩
    let data : MeasureData Float :=
      { parameters := [s, t], coefficients := [1], supports := [[0.5], [0.25]], inner := [],
        label := .ofMeasure 1, weight := .unit, name := "mean" }
    let m : Model Float := Request.replay { id := 0 }
      [.addParameter (.scalar (.interval 0 1)) "s" (some [0, 1]) 0 (some 12)
        (.finiteDifference .backward),
      .addParameter (.scalar (.interval 0 1)) "t" (some [0, 1]) 0 (some 12)
        (.finiteDifference .backward),
      .addInfiniteVariable "x" [.given s, .given t] none none .none false,
      .addMeasure (.given x) data ⟨rfl, by simp [data]⟩ "m",
      .setGenerativeInfo t (.given .undefined)]
    let refused : Request Float := .deleteSupports s .all
    let halted : Request Float := .deleteMeasure (.given ⟨0, .measure, 1⟩)
    Requested m ∧ m.Defined ∧ refused.Strips ∧ halted.Strips ∧
      (∃ error w', refused.operation ⟨{}, m⟩ = .error error w' ∧ w'.model = m) ∧
      halted.Halts m ∧
      ∃ error w', halted.operation ⟨{}, m⟩ = .error error w' ∧ halted.Leaves m w'.model := by
  intro s t x data m refused halted
  have hr : Requested m := .replay (.start 0 "model") _
  have hdef : m.Defined := Model.defined_of_allDefined (by decide +kernel)
  have hfails : Ends refused.operation ⟨{}, m⟩ (fun _ _ => False) fun _ => True := by decide +kernel
  have hrefused : refused.Strips := trivial
  have hhalted : halted.Strips := trivial
  have hhalts : halted.Halts m := by
    obtain ⟨μ, hfound, hmeasured, hkind⟩ := Except.exists_of_decide
      (x := do
        let μ ← m.measure ⟨0, .measure, 1⟩
        m.checkUnreferenced ⟨0, .measure, 1⟩ μ.name [.measure, .constraint]
        return μ)
      (fun μ => t ∈ μ.data.parameters ∧ μ.data.label.kind = .uniqueMeasure) (by decide +kernel)
    simp only [Except.bind_eq_ok, Except.pure_eq_ok] at hfound
    obtain ⟨μ', hμ, ⟨⟩, hfree, rfl⟩ := hfound
    obtain ⟨q, hq, hunknown⟩ := Except.exists_of_decide (x := m.parameter (.given t))
      (fun q => q.info.label.toOption = none) (by decide +kernel)
    have howned : m.ownedOf [.measure] (.given ⟨0, .measure, 1⟩) = .ok ⟨0, .measure, 1⟩ :=
      Model.ownedOf_eq_ok.2 ⟨rfl, (Model.measure_eq_ok.1 hμ).1, by simp⟩
    refine ⟨_, μ', howned, hμ, hfree, hkind, t, hmeasured, q, hq,
      GenerativeInfo.label_eq_error_iff.1 ?_⟩
    cases hlabel : q.info.label with
    | ok label => simp [hlabel, Except.toOption] at hunknown
    | error error => exact ⟨error, rfl⟩
  refine ⟨hr, hdef, hrefused, hhalted, ?_, hhalts,
    (unchanged_iff_of_requested hr hdef hhalted {}).2 hhalts⟩
  cases hrun : refused.operation ⟨{}, m⟩ with
  | ok _ w' => exact (hfails.of_ok hrun).elim
  | error error w' =>
    refine ⟨error, w', rfl,
      ((unchanged_iff_of_requested hr hdef hrefused {}).1 error w' hrun).2 fun hh => hh.1 rfl⟩

/-- Stored equations are gone when the label of derived supports turns out not to be known. -/
theorem not_unchanged_of_deletion :
    ¬ ∀ (m : Model Float) (request : Request Float) (e : Environment Float) (error : Error Float)
      (w' : Workspace Float), Requested m → m.Defined → request.Strips →
        request.operation ⟨e, m⟩ = .error error w' → w'.model = m := by
  intro hall
  let t : Ref := ⟨0, .parameter, 1⟩
  let x : Ref := ⟨0, .infiniteVariable, 1⟩
  let d : Ref := ⟨0, .derivative, 1⟩
  let m : Model Float := Request.replay { id := 0 }
    [.addParameter (.scalar (.interval 0 1)) "t" (some [0, 1]) 0 (some 12)
      (.finiteDifference .backward),
    .addInfiniteVariable "x" [.given t] none none .none false,
    .addDerivative (.given x) t "dx" (.ok "t"),
    .evaluate d,
    .setGenerativeInfo t (.given .undefined)]
  let request : Request Float := .deleteSupports t .userDefined
  have hr : Requested m := .replay (.start 0 "model") _
  have hdef : m.Defined := Model.defined_of_allDefined (by decide +kernel)
  have hstored : (m.equations? d.index).isSome = true := by decide +kernel
  have hfails : Ends request.operation ⟨{}, m⟩ (fun _ _ => False) fun w' =>
      (w'.model.equations? d.index).isSome = false := by decide +kernel
  cases hrun : request.operation ⟨{}, m⟩ with
  | ok _ w' => exact (hfails.of_ok hrun).elim
  | error error w' =>
    have hgone := hfails.of_error hrun
    rw [hall m request {} error w' hr hdef trivial hrun, hstored] at hgone
    cases hgone

end Discretization
