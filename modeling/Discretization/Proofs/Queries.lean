import Discretization.Proofs.Deletions

/-!
# What a Query Answers

A query with a label goes through the supports of a parameter and takes those that carry a label
which the given one matches. It counts them in the same way. Two queries do not look at labels: the
one for every support, and the one for visible supports where none is known to be internal. Whether
they answer as the others do depends on what was asked for before, as a support without labels, or
an internal one that is not known of, would be taken by the short way only.

## Main definitions

* `Label.Matches`: the labels that a selector, or any other label, stands for;
* `SupportMap.Selects`: the increasing list of the stored values that carry such a label.

## Main results

* `Parameter.Selectable.selects_selected`: what a parameter selects;
* `queried_of_requested`: the answer to a query, and the number of supports that goes with it.
-/

namespace Discretization

variable {α : Type} [Scalar α]

/-! ## What a label stands for -/

/-- The labels that a label of a query stands for. Selectors are told by their kind, whatever else
they hold; any other label stands for itself. -/
inductive Label.Matches (label : Label) : Label → Prop where
  /-- Every label. -/
  | all (h : label.kind = .all) (l : Label) : Matches label l
  /-- The labels that are not internal. -/
  | visible (h : label.kind = .visible) {l : Label} (hl : l.internal = false) : Matches label l
  /-- The internal labels. -/
  | hidden (h : label.kind = .hidden) {l : Label} (hl : l.internal = true) : Matches label l
  /-- The labels of samples. -/
  | sample (h : label.kind = .sample) {l : Label}
      (hl : l.kind = .monteCarlo ∨ l.kind = .weightedSample) : Matches label l
  /-- The labels of all measures. -/
  | anyMeasure (h : label.kind = .uniqueMeasure) (hm : label.measure = none) {l : Label}
      (hl : l.kind = .uniqueMeasure) : Matches label l
  /-- A label that is no selector. -/
  | self (h : label.isSelector = false) : Matches label label

namespace Label

variable {label l : Label}

theorem matches_of_covers (h : label.covers l = true) : label.Matches l := by
  cases hself : label.isSelector with
  | false =>
    obtain rfl : l = label := by rwa [Store.covers_eq_beq hself, beq_iff_eq] at h
    exact .self hself
  | true =>
    -- the kinds of selectors one by one; a measure label selects only if it has no number
    obtain ⟨kind, measure, internal⟩ := label
    cases kind with
    | all => exact .all rfl l
    | visible => exact .visible rfl (by simpa [covers] using h)
    | hidden => exact .hidden rfl (by simpa [covers] using h)
    | sample =>
      refine .sample rfl ?_
      cases hkind : l.kind <;> simp [covers, LabelKind.isSample, hkind] at h ⊢
    | uniqueMeasure =>
      cases measure with
      | none => exact .anyMeasure rfl rfl (by simpa [covers] using h)
      | some id => cases hself
    | _ => cases hself

/-- A label covers another one exactly if it stands for it. -/
theorem covers_iff_matches : label.covers l = true ↔ label.Matches l := by
  refine ⟨matches_of_covers, fun h => ?_⟩
  obtain ⟨kind, measure, internal⟩ := label
  cases h with
  | all h => cases h; rfl
  | visible h hl => cases h; simp [covers, hl]
  | hidden h hl => cases h; simp [covers, hl]
  | sample h hl => cases h; rcases hl with hl | hl <;> simp [covers, LabelKind.isSample, hl]
  | anyMeasure h hm hl => cases h; cases hm; simp [covers, hl]
  | self h => rw [Store.covers_eq_beq h, beq_self_eq_true]

end Label

/-! ## What is selected -/

/-- The values are the stored ones that carry a label which the given one stands for, in increasing
order. -/
structure SupportMap.Selects (m : SupportMap α) (label : Label) (values : List α) : Prop where
  increasing : Increasing values
  mem_iff : ∀ x, x ∈ values ↔ ∃ l, m.Stores x l ∧ label.Matches l

theorem SupportMap.Selects.unique [LawfulScalar α] {m : SupportMap α} {label : Label}
    {values values' : List α} (h : m.Selects label values) (h' : m.Selects label values') :
    values = values' :=
  h.increasing.eq_of_mem_iff h'.increasing fun x => (h.mem_iff x).trans (h'.mem_iff x).symm

/-- A stored value carries a label that another one covers exactly if it carries one that the other
stands for. -/
theorem SupportMap.mem_filter_carries_iff [LawfulScalar α] {m : SupportMap α}
    (h : Increasing m.values) (label : Label) (x : α) :
    x ∈ m.values.filter (m.carries label) ↔ ∃ l, m.Stores x l ∧ label.Matches l := by
  rw [SupportMap.filter_carries h, List.mem_map]
  constructor
  · rintro ⟨s, hs, rfl⟩
    obtain ⟨hs, hcovers⟩ := List.mem_filter.1 hs
    obtain ⟨l, hl, hcovers⟩ := List.any_eq_true.1 hcovers
    exact ⟨l, ⟨s, hs, rfl, hl⟩, Label.covers_iff_matches.1 hcovers⟩
  · rintro ⟨l, ⟨s, hs, rfl, hl⟩, hmatches⟩
    refine ⟨s, List.mem_filter.2 ⟨hs, ?_⟩, rfl⟩
    exact List.any_eq_true.2 ⟨l, hl, Label.covers_iff_matches.2 hmatches⟩

/-- What a parameter selects by a label, also where it does not look at labels. -/
theorem Parameter.Selectable.selects_selected [LawfulScalar α] {q : Parameter α}
    (h : q.Selectable) (label : Label) : q.supports.Selects label (q.selected label) where
  increasing := by
    rw [h.selected_eq]
    exact h.ordered.sublist List.filter_sublist
  mem_iff x := by
    rw [h.selected_eq]
    exact SupportMap.mem_filter_carries_iff h.ordered label x

/-! ## Queries -/

/-- In all models that come about by requests and whose supports are defined, a query of a
parameter with any label gives the one increasing list of the stored values that carry a label for
which the given one stands, and counting these supports gives its length. -/
theorem queried_of_requested [LawfulScalar α] {m : Model α} (h : Requested m) (hd : m.Defined)
    {p : Ref} {q : Parameter α} (hq : m.parameter (.given p) = .ok q) (label : Label) :
    ∃ values, m.supports p label = .ok values ∧ m.supportCount p label = .ok values.length ∧
      ∀ values', q.supports.Selects label values' ↔ values' = values := by
  have hselects := (selectable_of_requested h hd p q hq).selects_selected label
  refine ⟨q.selected label, ?_, ?_, fun values' => ⟨fun h' => h'.unique hselects, ?_⟩⟩
  · rw [Model.supports, hq]
    rfl
  · rw [Model.supportCount, hq, q.length_selected]
    rfl
  · rintro rfl
    exact hselects

/-- With derived supports in place, the query for visible supports looks at labels, and leaves the
derived one out. So does a label that is a selector by its kind only. -/
theorem queried_of_requested_visible :
    let p : Ref := ⟨0, .parameter, 1⟩
    let marked : Label := { kind := .visible, measure := some 7 }
    let m : Model ℚ := Request.replay { id := 0 }
      [.addParameter (.scalar (.interval 0 1)) "t" (some [0, 1]) 0 (some 6)
        (.orthogonalCollocation 3),
      .addGenerativeSupports p,
      .addSupports p [1] (.given .collocation) true]
    Requested m ∧ m.Defined ∧ ∃ q, m.parameter (.given p) = .ok q ∧ q.hasInternal = true ∧
      ∀ label ∈ [Label.visible, marked], m.supports p label = .ok [0, 1] ∧
        m.supportCount p label = .ok 2 ∧
        ∀ values, q.supports.Selects label values ↔ values = [0, 1] := by
  intro p marked m
  have hr : Requested m := .replay (.start 0 "model") _
  have hdef : m.Defined := Model.defined_of_allDefined (by decide +kernel)
  obtain ⟨q, hq, hinternal⟩ := Except.exists_of_decide (x := m.parameter (.given p))
    (fun q => q.hasInternal = true) (by decide +kernel)
  -- a measure number on a visible label makes no difference
  have hboth : ∀ label ∈ [Label.visible, marked],
      (m.supports p label).toOption.any (· = [0, 1]) = true := by
    decide +kernel
  refine ⟨hr, hdef, q, hq, hinternal, fun label hlabel => ?_⟩
  obtain ⟨values, hvalues, hcount, hselects⟩ := queried_of_requested hr hdef hq label
  obtain ⟨_, hfound, rfl⟩ := Except.exists_of_decide (· = [0, 1]) (hboth label hlabel)
  obtain rfl := Except.ok.inj (hvalues.symm.trans hfound)
  exact ⟨hvalues, hcount, hselects⟩

end Discretization
