import Discretization.Proofs.DoubleLaws
import Discretization.Proofs.Steps

/-!
# Stored Supports Are Well Formed

The supports of a parameter are a sorted table from values to sets of labels. Values are inserted
and removed one by one, labels are added and stripped in place, and derived values come in beside
the others; through all of that the values stay rounded and strictly increasing, so that the two
zeros count once, and every value keeps at least one label, none of them a selector.

## Main definitions

* `Support.Labelled`: the labels of a support are a nonempty set of labels that can be stored;
* `SupportMap.WellFormed`: what holds of the supports of every parameter.

## Main results

* `SupportMap.labels?_eq_some_iff`: on increasing values, the table has exactly the stored labels;
* `wellFormed_of_requested`: supports are well formed, whatever is asked for.
-/

namespace Discretization

variable {α : Type}

/-! ## Labels of a support -/

/-- The labels are a nonempty set of labels that can be stored. -/
structure Support.Labelled (s : Support α) : Prop where
  nonempty : s.labels ≠ []
  nodup : s.labels.Nodup
  storable : ∀ label ∈ s.labels, label.isSelector = false

theorem Label.mem_insert {label l : Label} {labels : List Label} :
    l ∈ label.insert labels ↔ l ∈ labels ∨ l = label := by
  unfold Label.insert
  split
  · exact ⟨.inl, fun h => h.elim id fun h => h ▸ by assumption⟩
  · rw [List.mem_append, List.mem_singleton]

namespace Support.Labelled

variable {s s' : Support α} {label : Label}

theorem single (x : α) (h : label.isSelector = false) : Support.Labelled ⟨x, [label]⟩ where
  nonempty := List.cons_ne_nil _ _
  nodup := List.nodup_singleton _
  storable _ hl := List.mem_singleton.1 hl ▸ h

theorem insert (hs : s.Labelled) (h : label.isSelector = false) :
    Support.Labelled { s with labels := label.insert s.labels } where
  nonempty := List.ne_nil_of_mem (Label.mem_insert.2 (.inr rfl))
  nodup := by
    simp only [Label.insert]
    split
    · exact hs.nodup
    · rename_i hnew
      rw [List.nodup_append]
      exact ⟨hs.nodup, List.nodup_singleton _, fun a ha b hb => by
        rintro rfl
        exact hnew (List.mem_singleton.1 hb ▸ ha)⟩
  storable l hl := (Label.mem_insert.1 hl).elim (hs.storable l) fun hl => hl ▸ h

/-- A support that stays keeps a label. -/
theorem stripped [Scalar α] {selectors : List Label} (hs : s.Labelled)
    (h : s.stripped selectors = some s') : s'.Labelled := by
  unfold Support.stripped at h
  split at h
  · cases h
  · rename_i hall
    cases h
    rw [Label.allCovered, Bool.not_eq_true, List.all_eq_false] at hall
    -- some label is not covered by the stripped ones, and it is kept
    obtain ⟨l, hl, hcovered⟩ := hall
    exact ⟨List.ne_nil_of_mem (List.mem_filter.2 ⟨hl, by simpa using hcovered⟩),
      hs.nodup.filter _, fun l hl => hs.storable l (List.mem_filter.1 hl).1⟩

end Support.Labelled

variable [Scalar α]

namespace SupportMap

variable {m : SupportMap α} {s : Support α}

/-! ## Labels of all supports -/

theorem labelled_addAll (h : ∀ s ∈ m.supports, s.Labelled) {label : Label}
    (hl : label.isSelector = false) (values : List α) :
    ∀ s ∈ (m.addAll values label).2.supports, s.Labelled := by
  induction values generalizing m with
  | nil => exact h
  | cons value rest ih =>
    rw [addAll_cons]
    refine ih fun s hs => ?_
    rcases mem_supports_add hs with hs | ⟨s₀, hs₀, rfl⟩ | rfl
    · exact h s hs
    · exact (h s₀ hs₀).insert hl
    · exact .single value hl

theorem labelled_strip (h : ∀ s ∈ m.supports, s.Labelled) (selectors : List Label) :
    ∀ s ∈ (m.strip selectors).1.supports, s.Labelled := by
  intro s hs
  obtain ⟨s₀, hs₀, rfl | hstripped⟩ := mem_strip hs
  · exact h s hs₀
  · exact (h s₀ hs₀).stripped hstripped

/-! ## Well-formed supports -/

/-- On increasing values, the table gives for each value the labels of its one support. -/
theorem labels?_eq_some_iff [LawfulScalar α] (h : Increasing m.values) {x : α}
    {labels : List Label} :
    m.labels? x = some labels ↔ ∃ s ∈ m.supports, (s.value == x) = true ∧ s.labels = labels := by
  rw [labels?, Option.map_eq_some_iff]
  constructor
  · rintro ⟨s, hs, rfl⟩
    have he : (s.value == x) = true := by simpa using List.find?_some hs
    exact ⟨s, List.mem_of_find?_eq_some hs, he, rfl⟩
  · rintro ⟨s, hs, he, rfl⟩
    obtain ⟨s', hs'⟩ := Option.isSome_iff_exists.1
      (List.find?_isSome.2 ⟨s, hs, he⟩ : (m.supports.find? (·.value == x)).isSome = true)
    have hmem' := List.mem_of_find?_eq_some hs'
    have he' : (s'.value == x) = true := by simpa using List.find?_some hs'
    -- equal values are the same, and each is stored once
    have hvalue : s'.value = s.value := h.eq_of_beq (List.mem_map_of_mem hmem')
      (List.mem_map_of_mem hs) (LawfulScalar.beq_trans he' (LawfulScalar.beq_symm he))
    exact ⟨s, List.inj_on_of_nodup_map h.nodup hmem' hs hvalue ▸ hs', rfl⟩

/-- The supports of a parameter with the given number of digits: strictly increasing rounded values,
and a table with a nonempty set of storable labels for each of them and nothing else. -/
structure WellFormed (m : SupportMap α) (digits : Int) : Prop where
  increasing : Increasing m.values
  table : ∀ x labels, m.labels? x = some labels ↔
    ∃ s ∈ m.supports, (s.value == x) = true ∧ s.labels = labels
  labelled : ∀ s ∈ m.supports, s.Labelled
  rounded : ∀ x ∈ m.values, roundTo digits x = .ok x

end SupportMap

/-! ## Steps -/

variable {q q' : Parameter α}

namespace Parameter

/-- Every step keeps the supports of a parameter labelled. -/
theorem Step.labelled (hs : q.Step q') (h : ∀ s ∈ q.supports.supports, s.Labelled) :
    ∀ s ∈ q'.supports.supports, s.Labelled := by
  cases hs with
  | note internal equations => exact h
  | add _ hl => exact SupportMap.labelled_addAll h hl _
  | strip selectors => exact SupportMap.labelled_strip h selectors
  | clear => exact nofun
  | derive _ _ _ _ hl => exact SupportMap.labelled_addAll h hl _
  | redefine method info _ => exact h

section Lawful

variable [LawfulScalar α]

/-- Every step keeps the supports of a parameter in order, as long as they are defined. -/
theorem Step.ordered (hs : q.Step q')
    (h : (∀ x ∈ q.supports.values, Scalar.Defined x) → Increasing q.supports.values)
    (hdef : ∀ x ∈ q'.supports.values, Scalar.Defined x) : Increasing q'.supports.values := by
  -- values of before are still there, so they were defined and in order; so are the new ones
  have added : ∀ {rounded : List α} {label : Label},
      (∀ x ∈ (q.supports.addAll rounded label).2.values, Scalar.Defined x) →
        Increasing (q.supports.addAll rounded label).2.values := fun {rounded label} hdef =>
    SupportMap.increasing_addAll
      (h fun x hx => hdef x ((SupportMap.values_sublist_addAll q.supports rounded label).subset hx))
      (SupportMap.defined_of_addAll hdef) label
  cases hs with
  | note internal equations => exact h hdef
  | add _ _ => exact added hdef
  | strip selectors => exact SupportMap.increasing_strip (h (Store.defined_of_strip hdef)) selectors
  | clear => exact .nil
  | derive _ _ _ _ _ => exact added hdef
  | redefine method info _ => exact h hdef

/-- Every step keeps the supports of a parameter rounded. -/
theorem Step.rounded (hs : q.Step q') (h : ∀ x ∈ q.supports.values, roundTo q.digits x = .ok x) :
    ∀ x ∈ q'.supports.values, roundTo q'.digits x = .ok x := by
  -- rounding again leaves a rounded value as it is
  have added : ∀ {values rounded : List α} {label : Label},
      roundList q.digits values = .ok rounded →
        ∀ x ∈ (q.supports.addAll rounded label).2.values, roundTo q.digits x = .ok x := by
    intro values rounded label hr x hx
    rcases SupportMap.mem_values_addAll hx with hx | hx
    · exact h x hx
    · obtain ⟨y, -, hy⟩ := exists_left_of_mem (roundList_eq_ok.1 hr).2 hx
      exact roundTo_idem hy
  cases hs with
  | note internal equations => exact h
  | add hr _ => exact added hr
  | strip selectors => exact fun x hx => h x (SupportMap.values_strip_subset selectors hx)
  | clear => exact nofun
  | derive _ _ _ hr _ => exact added hr
  | redefine method info _ => exact h

end Lawful

/-- What steps keep of the supports of a parameter, also where some are undefined. -/
structure Tidy (q : Parameter α) : Prop where
  ordered : (∀ x ∈ q.supports.values, Scalar.Defined x) → Increasing q.supports.values
  labelled : ∀ s ∈ q.supports.supports, s.Labelled
  rounded : ∀ x ∈ q.supports.values, roundTo q.digits x = .ok x

theorem Tidy.of_new (h : q.New) : q.Tidy := by
  refine ⟨fun _ => ?_, ?_, ?_⟩ <;> rw [h.supports]
  · exact .nil
  · exact nofun
  · exact nofun

theorem Tidy.step [LawfulScalar α] (h : q.Tidy) (hs : q.Step q') : q'.Tidy :=
  ⟨hs.ordered h.ordered, hs.labelled h.labelled, hs.rounded h.rounded⟩

theorem Tidy.steps [LawfulScalar α] (h : q.Tidy) (hs : q.Steps q') : q'.Tidy :=
  hs.keeps (fun _ _ h hs => h.step hs) h

theorem tidy_of_requested [LawfulScalar α] {m : Model α} (h : Requested m) :
    ∀ p q, m.parameter (.given p) = .ok q → q.Tidy :=
  h.parameter_induction (fun _ hnew => .of_new hnew) fun _ _ hq hs => hq.step hs

end Parameter

/-- Whatever is asked for, the supports of every parameter are well formed as long as all are
defined. -/
theorem wellFormed_of_requested [LawfulScalar α] {m : Model α} (h : Requested m) (hdef : m.Defined)
    {p : Ref} (hq : m.parameter (.given p) = .ok q) : q.supports.WellFormed q.digits := by
  have htidy := Parameter.tidy_of_requested h p q hq
  -- defined values are in order, so the table finds each of them once
  have hincreasing := htidy.ordered (hdef p q hq)
  exact ⟨hincreasing, fun _ _ => SupportMap.labels?_eq_some_iff hincreasing, htidy.labelled,
    htidy.rounded⟩

/-- Doubles given out of order and rounded, with derived supports in place between them and both
zeros given, one after the other. -/
theorem wellFormed_of_requested_derived :
    let p : Ref := ⟨0, .parameter, 1⟩
    let m : Model Float := Request.replay { id := 0 }
      [.addParameter (.scalar (.interval 0 1)) "t" (some [1, -0.0, 0.49999996]) 0 (some 6)
        (.finiteDifference .backward),
      .setGenerativeInfo p (.given (.uniform [0.5] .collocation)),
      .addGenerativeSupports p,
      .addSupports p [0.25, 0.0] (.given .uniformGrid) true]
    Requested m ∧ m.Defined ∧ ∃ q, m.parameter (.given p) = .ok q ∧
      q.supports.values = [-0.0, 0.25, 0.5, 0.75, 1] ∧ q.supports.WellFormed q.digits := by
  intro p m
  have hr : Requested m := .replay (.start 0 "model") _
  have hdef : m.Defined := Model.defined_of_allDefined (by decide +kernel)
  have hq : (match m.parameter (.given p) with
    | .ok q => decide (q.supports.values = [-0.0, 0.25, 0.5, 0.75, 1])
    | .error _ => false) = true := by decide +kernel
  split at hq
  · rename_i q h
    exact ⟨hr, hdef, q, h, of_decide_eq_true hq, wellFormed_of_requested hr hdef h⟩
  · cases hq

end Discretization
