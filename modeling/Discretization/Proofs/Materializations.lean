import Discretization.Proofs.Arithmetic
import Discretization.Proofs.Bounds
import Discretization.Proofs.Pairs
import Discretization.Proofs.Placements

/-!
# Derived Supports Come and Go without a Trace

Derived supports are put in place under a label of their own. They may coincide with supports that
are there already, which then gain that label, and with one another. Stripping the label takes off
what was attached and takes away what was put in, so it leaves exactly the supports from before.
That is what deleting the label does, and what adding a new value under another label does once the
value is stored: stripping a label and inserting a value under another one commute.

Putting derived supports in place cannot fail where there are several supports to derive from. Only
numbers of digits that are out of range make rounding fail, and then all stored values are zero or
not finite; of two neighbours one is not finite, and nor is what is derived from them.

## Main definitions

* `Parameter.Places`: the second parameter has derived supports beside those of the first.

## Main results

* `SupportMap.strip_addAll`: stripping a label undoes adding values under it;
* `SupportMap.strip_add_of_new`: stripping a label commutes with adding a new value under another;
* `exists_roundList_points`: derived supports can be rounded;
* `materializes_of_requested`: putting derived supports in place is exact, stable and reversible.
-/

namespace Discretization

variable {α : Type} [Scalar α]

namespace SupportMap

variable {m : SupportMap α} {value x : α} {values : List α} {label l : Label}
  {selectors : List Label}

/-! ## Stripping what was added -/

omit [Scalar α] in
/-- A label that was attached does not show any more once it is stripped. -/
theorem stripped_insert (hl : Label.coveredBy selectors label = true) (s : Support α) :
    Support.stripped selectors { s with labels := label.insert s.labels } =
      s.stripped selectors := by
  by_cases hmem : label ∈ s.labels
  · simp [Label.insert, hmem]
  · simp [Label.insert, hmem, Support.stripped, Label.allCovered, hl]

theorem filterMap_stripped_add (hl : Label.coveredBy selectors label = true) (value : α) :
    (m.add value label).2.supports.filterMap (Support.stripped selectors) =
      m.supports.filterMap (Support.stripped selectors) := by
  cases hc : m.contains value with
  | true =>
    rw [add, if_pos hc, List.filterMap_map]
    refine List.filterMap_congr fun s _ => ?_
    simp only [Function.comp_apply]
    split
    · exact stripped_insert hl s
    · rfl
  | false =>
    -- the new support has no other label, so nothing is left of it
    have hgone : Support.stripped selectors (⟨value, [label]⟩ : Support α) = none := by
      simp [Support.stripped, Label.allCovered, hl]
    rw [add_of_not_contains label hc]
    dsimp only
    rw [insertIdx_eq _ _ (positionAfter_le _ _), List.filterMap_append,
      List.filterMap_cons_none hgone, ← List.filterMap_append, List.take_append_drop]

variable [LawfulScalar α]

/-- Stripping a label undoes adding values under it. -/
theorem strip_addAll (h : Increasing m.values) (hv : ∀ x ∈ values, Scalar.Defined x)
    (hl : Label.coveredBy selectors label = true) :
    (m.addAll values label).2.strip selectors = m.strip selectors := by
  rw [strip_eq (increasing_addAll h hv label), strip_eq h]
  congr 2
  -- value by value, from the left as they are added
  induction values generalizing m with
  | nil => rfl
  | cons value rest ih =>
    rw [addAll_cons, ih (increasing_add h (hv value List.mem_cons_self) label)
      fun x hx => hv x (List.mem_cons_of_mem value hx)]
    exact filterMap_stripped_add hl value

/-- Stripping a label that is nowhere in store changes nothing. -/
theorem strip_of_apart (h : Increasing m.values) (hlabelled : ∀ s ∈ m.supports, s.Labelled)
    (hown : label.isSelector = false) (hapart : ∀ x, ¬ m.Stores x label) :
    m.strip [label] = (m, none) := by
  rw [strip_eq h]
  have hstays : ∀ s ∈ m.supports, s.stripped [label] = some s := by
    intro s hs
    -- a label that is no selector covers itself only, and it is not there
    have hcovered : ∀ l ∈ s.labels, Label.coveredBy [label] l = false := by
      intro l hl
      simp only [Label.coveredBy, List.any_cons, List.any_nil, Bool.or_false,
        Store.covers_eq_beq hown, beq_eq_false_iff_ne]
      rintro rfl
      exact hapart s.value ⟨s, hs, rfl, hl⟩
    obtain ⟨l, hl⟩ := List.exists_mem_of_ne_nil _ (hlabelled s hs).nonempty
    have hall : Label.allCovered [label] s.labels = false := by
      rw [Label.allCovered, List.all_eq_false]
      exact ⟨l, hl, by simp [hcovered l hl]⟩
    have hkept : s.labels.filter (fun l => !Label.coveredBy [label] l) = s.labels :=
      List.filter_eq_self.2 fun l hl => by simp [hcovered l hl]
    simp [Support.stripped, hall, hkept]
  rw [List.filterMap_congr hstays, List.filterMap_some]

/-- Values that were added under a label of their own come and go without a trace. -/
theorem strip_addAll_of_apart (h : Increasing m.values)
    (hlabelled : ∀ s ∈ m.supports, s.Labelled) (hown : label.isSelector = false)
    (hapart : ∀ x, ¬ m.Stores x label) (hv : ∀ x ∈ values, Scalar.Defined x) :
    (m.addAll values label).2.strip [label] = (m, none) := by
  have hcovered : Label.coveredBy [label] label = true := by
    simp [Label.coveredBy, Store.covers_eq_beq hown]
  exact (strip_addAll h hv hcovered).trans (strip_of_apart h hlabelled hown hapart)

/-! ## Stripping beside a new value -/

/-- A new value comes after the supports that are not above it. -/
theorem supports_add_of_new (h : Increasing m.values) (hnew : m.contains value = false)
    (label : Label) :
    (m.add value label).2.supports = m.supports.filter (fun s => !decide (value < s.value)) ++
      ⟨value, [label]⟩ :: m.supports.filter (fun s => decide (value < s.value)) := by
  obtain ⟨hle, hbefore, hafter⟩ := positionAfter_spec h value
  -- the position of the new value splits the supports as the comparison does
  have hsplit := List.take_append_drop (positionAfter m.supports value) m.supports
  have htake : ∀ s ∈ m.supports.take (positionAfter m.supports value), ¬ value < s.value := by
    intro s hs
    obtain ⟨i, hi, rfl⟩ := List.mem_iff_getElem.1 hs
    simp only [List.length_take, List.getElem_take] at hi ⊢
    exact hbefore i (by omega) (by omega)
  have hdrop : ∀ s ∈ m.supports.drop (positionAfter m.supports value), value < s.value := by
    intro s hs
    obtain ⟨i, hi, rfl⟩ := List.mem_iff_getElem.1 hs
    simp only [List.length_drop, List.getElem_drop] at hi ⊢
    exact hafter _ (by omega) (by omega)
  rw [add_of_not_contains label hnew]
  dsimp only
  rw [insertIdx_eq _ _ hle]
  congr 1
  · conv_rhs => rw [← hsplit, List.filter_append]
    rw [List.filter_eq_self.2 (by simpa using htake),
      List.filter_eq_nil_iff.2 (by simpa using hdrop), List.append_nil]
  · congr 1
    conv_rhs => rw [← hsplit, List.filter_append]
    rw [List.filter_eq_nil_iff.2 (by simpa using htake),
      List.filter_eq_self.2 (by simpa using hdrop), List.nil_append]

/-- A new value keeps defined values in order and comes last if it is undefined. -/
theorem ascending_add (h : Increasing m.values) (hnew : m.contains value = false) (label : Label) :
    Ascending (m.add value label).2.values := by
  have hpair : ∀ {P : Support α → Bool}, (m.supports.filter P).Pairwise fun s t =>
      s.value < t.value ∨ ¬ Scalar.Defined t.value := fun {P} =>
    (List.Pairwise.sublist List.filter_sublist (List.pairwise_map.1 h.pairwise)).imp .inl
  have hbelow : ∀ s ∈ m.supports, ¬ value < s.value →
      s.value < value ∨ ¬ Scalar.Defined value := by
    intro s hs hle
    by_cases hv : Scalar.Defined value
    · left
      obtain hlt | he | hgt :=
        LawfulScalar.lt_or_beq_or_lt (h.defined _ (List.mem_map_of_mem hs)) hv
      · exact hlt
      · have hstored : m.contains value = true := List.any_eq_true.2 ⟨s, hs, he⟩
        simp [hstored] at hnew
      · exact absurd hgt hle
    · exact .inr hv
  unfold Ascending values
  rw [supports_add_of_new h hnew, List.pairwise_map, List.pairwise_append, List.pairwise_cons]
  refine ⟨hpair, ⟨fun t ht => .inl (by simpa using (List.mem_filter.1 ht).2), hpair⟩,
    fun s hs t ht => ?_⟩
  obtain ⟨hs, hle⟩ := List.mem_filter.1 hs
  have hs := hbelow s hs (by simpa using hle)
  obtain rfl | ht := List.mem_cons.1 ht
  · exact hs
  · -- a support above the new value is above all that are below that
    have hlt : value < t.value := by simpa using (List.mem_filter.1 ht).2
    exact .inl (LawfulScalar.lt_trans (hs.resolve_right fun hundef =>
      hundef (LawfulScalar.defined_of_lt hlt)) hlt)

omit [Scalar α] [LawfulScalar α] in
/-- Stripping does not look at values. -/
theorem filterMap_stripped_filter (P : α → Bool) (supports : List (Support α)) :
    (supports.filter fun s => P s.value).filterMap (Support.stripped selectors) =
      (supports.filterMap (Support.stripped selectors)).filter fun s => P s.value := by
  rw [List.filterMap_filter, List.filter_filterMap]
  refine List.filterMap_congr fun s _ => ?_
  cases hall : Label.allCovered selectors s.labels <;> cases hP : P s.value <;>
    simp [Support.stripped, hall, hP, Option.filter]

/-- Stripping labels commutes with adding a new value under a label that they leave. -/
theorem strip_add_of_new (h : Increasing m.values) (hnew : m.contains value = false)
    (hl : Label.coveredBy selectors label = false) :
    (m.add value label).2.strip selectors = (((m.strip selectors).1.add value label).2, none) := by
  have hstays : Support.stripped selectors (⟨value, [label]⟩ : Support α) =
      some ⟨value, [label]⟩ := by
    simp [Support.stripped, Label.allCovered, hl]
  have hdef : ∀ s ∈ (m.add value label).2.supports,
      Label.allCovered selectors s.labels = true → Scalar.Defined s.value := by
    intro s hs hall
    rw [supports_add_of_new h hnew, List.mem_append, List.mem_cons] at hs
    obtain hs | rfl | hs := hs
    · exact h.defined _ (List.mem_map_of_mem (List.mem_filter.1 hs).1)
    · simp [Label.allCovered, hl] at hall
    · exact h.defined _ (List.mem_map_of_mem (List.mem_filter.1 hs).1)
  have hnew' : (m.strip selectors).1.contains value = false := by
    rw [Bool.eq_false_iff, ne_eq, contains_iff] at hnew ⊢
    rintro ⟨y, hy, he⟩
    exact hnew ⟨y, values_strip_subset selectors hy, he⟩
  have hstrip := congrArg Prod.fst (strip_eq h selectors)
  rw [strip_eq_of_ascending (ascending_add h hnew label) hdef, Prod.mk.injEq]
  refine ⟨?_, rfl⟩
  -- both sides are the stripped supports with the new value between them
  rw [supports_add_of_new h hnew, List.filterMap_append, List.filterMap_cons_some hstays,
    filterMap_stripped_filter fun x => !decide (value < x),
    filterMap_stripped_filter fun x => decide (value < x)]
  have hsupports := supports_add_of_new (increasing_strip h selectors) hnew' label
  rw [hstrip] at hsupports ⊢
  rw [← hsupports]

end SupportMap

/-! ## Rounding derived values -/

/-- Several supports have elements between them to derive others in. -/
theorem GenerativeInfo.makeSupports_of_several {info : GenerativeInfo α}
    {basis existing : List α} {label : Label} (hinfo : info = .uniform basis label)
    (hseveral : 2 ≤ existing.length) (owner : String) :
    info.makeSupports existing owner = .ok (points basis existing) := by
  rw [hinfo, makeSupports, if_neg (by omega)]
  rfl

section Rounding

variable {digits : Int}

/-- Where the number of digits can be carried out, rounding does not fail. -/
theorem exists_roundTo (hpos : 1 ≤ digits) (hle : digits ≤ greatestDigits) (x : α) :
    ∃ y, roundTo digits x = .ok y := by
  unfold roundTo
  split
  · exact ⟨x, rfl⟩
  · rw [if_neg (by omega)]
    exact ⟨_, rfl⟩

/-- Where it cannot, only zeros and numbers that are not finite are rounded. -/
theorem eq_zero_or_not_finite_of_roundTo (hgt : greatestDigits < digits) {x y : α}
    (h : roundTo digits x = .ok y) : (x == 0) = true ∨ Scalar.isFinite x = false := by
  unfold roundTo at h
  split at h
  · rename_i hpass
    simpa using hpass
  · simp [hgt] at h

variable [LawfulScalar α] [StrictScalar α]

/-- Between two rounded numbers, a derived one can be rounded. -/
theorem exists_roundTo_point (hpos : 1 ≤ digits) {lower upper : α}
    (hlower : roundTo digits lower = .ok lower) (hupper : roundTo digits upper = .ok upper)
    (hlt : lower < upper) (offset : α) :
    ∃ y, roundTo digits (GenerativeInfo.point lower upper offset) = .ok y := by
  by_cases hle : digits ≤ greatestDigits
  · exact exists_roundTo hpos hle _
  -- two zeros are not in order, so one of the two numbers is not finite
  have hnotboth : Scalar.isFinite lower = false ∨ Scalar.isFinite upper = false := by
    obtain hzero | hinfinite := eq_zero_or_not_finite_of_roundTo (not_le.1 hle) hlower
    · obtain hzero' | hinfinite' := eq_zero_or_not_finite_of_roundTo (not_le.1 hle) hupper
      · have hequal := LawfulScalar.beq_trans hzero (LawfulScalar.beq_symm hzero')
        exact absurd hlt (LawfulScalar.not_lt_of_beq hequal)
      · exact .inr hinfinite'
    · exact .inl hinfinite
  -- then nor is what is derived from them, and it is left alone
  have hpoint : Scalar.isFinite (GenerativeInfo.point lower upper offset) = false := by
    rw [Bool.eq_false_iff]
    intro hfinite
    obtain ⟨hlower', hrest⟩ := StrictScalar.finite_of_add hfinite
    obtain ⟨hupper', -⟩ := StrictScalar.finite_of_sub (StrictScalar.finite_of_mul hrest).2
    simp [hlower', hupper'] at hnotboth
  refine ⟨GenerativeInfo.point lower upper offset, ?_⟩
  simp [roundTo, hpoint, Pure.pure, Except.pure]

/-- Values that are derived from rounded ones in order can be rounded. -/
theorem exists_roundList_points (hpos : 1 ≤ digits) {values : List α} (h : Increasing values)
    (hrounded : ∀ x ∈ values, roundTo digits x = .ok x) (basis : List α) :
    ∃ rounded, roundList digits (GenerativeInfo.points basis values) = .ok rounded := by
  have hpoints : ∀ x ∈ GenerativeInfo.points basis values, ∃ y, roundTo digits x = .ok y := by
    intro x hx
    obtain ⟨⟨lower, upper⟩, hpair, hx⟩ := List.mem_flatMap.1 hx
    obtain ⟨offset, -, rfl⟩ := List.mem_map.1 hx
    obtain ⟨hlower, hupper, hlt⟩ := rel_of_mem_zip_tail h.pairwise _ hpair
    exact exists_roundTo_point hpos (hrounded _ hlower) (hrounded _ hupper) hlt offset
  choose! round hround using hpoints
  refine ⟨(GenerativeInfo.points basis values).map round, roundList_eq_ok.2 ⟨hpos, ?_⟩⟩
  rw [List.forall₂_map_right_iff]
  exact List.forall₂_same.2 hround

end Rounding

/-! ## Derived supports beside the others -/

namespace Parameter

variable {q q' : Parameter α} {label : Label} {rounded : List α}

theorem Step.digits (h : q.Step q') : q'.digits = q.digits := by
  cases h <;> rfl

/-- Digits are checked when a parameter is added. -/
theorem digits_pos_of_requested {m : Model α} (h : Requested m) :
    ∀ p q, m.parameter (.given p) = .ok q → 1 ≤ q.digits :=
  h.parameter_induction (fun _ hnew => hnew.digits) fun q q' hq hs => by
    have := hs.digits
    omega

/-- The second parameter has the given derived supports in place beside the supports of the first:
their label is attached to exactly these values, and all other labels are where they were. -/
structure Places (q q' : Parameter α) (label : Label) (rounded : List α) : Prop where
  placed : q'.hasGenerative = true
  /-- No value goes, and the derived ones come. -/
  values : ∀ x, q'.supports.contains x = true ↔
    q.supports.contains x = true ∨ ∃ y ∈ rounded, (y == x) = true
  own : ∀ x, q'.supports.StoresLike x label ↔ ∃ y ∈ rounded, Scalar.Agrees y x
  others : ∀ x l, l ≠ label → (q'.supports.Stores x l ↔ q.supports.Stores x l)
  /-- The values that others are derived from are the same, also where derived ones coincide with
  some of them. -/
  base : q'.supports.baseValues label = q.supports.baseValues label

variable [LawfulScalar α]

/-- Derived supports that were added under a new label are in place. -/
theorem places_of_addAll (hordered : Increasing q.supports.values)
    (hlabelled : ∀ s ∈ q.supports.supports, s.Labelled) (hown : label.isSelector = false)
    (hapart : ∀ x, ¬ q.supports.Stores x label) (hdef : ∀ x ∈ rounded, Scalar.Defined x)
    (hplaced : q'.hasGenerative = true)
    (hsupports : q'.supports = (q.supports.addAll rounded label).2) :
    q.Places q' label rounded where
  placed := hplaced
  values x := by
    rw [hsupports, SupportMap.contains_iff, SupportMap.contains_iff]
    constructor
    · rintro ⟨y, hy, hyx⟩
      obtain hy | hy := SupportMap.mem_values_addAll hy
      · exact .inl ⟨y, hy, hyx⟩
      · exact .inr ⟨y, hy, hyx⟩
    · rintro (⟨y, hy, hyx⟩ | ⟨y, hy, hyx⟩)
      · exact ⟨y, (SupportMap.values_sublist_addAll _ _ _).subset hy, hyx⟩
      · -- the derived value is stored in a form that equals it
        obtain ⟨z, ⟨s, hs, rfl, -⟩, hzy⟩ := SupportMap.exists_stores_addAll q.supports label hy
        have hbeq := Scalar.Agrees.beq hzy.symm (hdef y hy)
        exact ⟨s.value, List.mem_map_of_mem hs,
          LawfulScalar.beq_trans (LawfulScalar.beq_symm hbeq) hyx⟩
  own x := by
    rw [hsupports, SupportMap.storesLike_addAll_iff]
    constructor
    · rintro (⟨y, hy, -⟩ | ⟨-, hx⟩)
      · exact absurd hy (hapart y)
      · exact hx
    · exact fun hx => .inr ⟨rfl, hx⟩
  others x l hl := by
    rw [hsupports]
    refine ⟨fun hx => ?_, fun hx => hx.addAll rounded label⟩
    exact (SupportMap.stores_of_addAll hx).resolve_right fun h => hl h.1
  base := by
    -- both are what is left when the label is stripped
    have hstrip := SupportMap.strip_addAll_of_apart hordered hlabelled hown hapart hdef
    have hdone : ((q.supports.addAll rounded label).2.strip [label]).2 = none := by rw [hstrip]
    have hgrownLabelled := SupportMap.labelled_addAll hlabelled hown rounded
    rw [hsupports, ← SupportMap.values_strip hdone hgrownLabelled hown, hstrip,
      SupportMap.baseValues_of_apart hapart]

end Parameter

namespace Store

open Operation

variable {w : Workspace α} {p : Ref} {q : Parameter α} {basis : List α} {derived : Label}

/-- Deleting the label of derived supports strips that label alone. -/
theorem ends_delete_derived (hq : w.model.parameter (.given p) = .ok q)
    (hinfo : q.info = .uniform basis derived) (hown : derived.isSelector = false)
    (hdone : (q.supports.strip [derived]).2 = none) :
    Ends (delete p derived) w
      (fun _ w' => ∃ q', w'.model.parameter (.given p) = .ok q' ∧
        q'.supports = (q.supports.strip [derived]).1)
      fun _ => False := by
  have hlabel : q.info.label = .ok derived := by rw [hinfo]; rfl
  -- the label is stripped once, although it is both given and that of derived supports
  have hone : selectors q derived derived = [derived] := by simp [selectors]
  refine (ends_delete_strips hq hown).mono ?_ fun _ hearly => ?_
  · rintro _ w' ⟨derived', q', hlabel', -, hq', hsupports, -, -⟩
    obtain rfl : derived = derived' := Except.ok.inj (hlabel.symm.trans hlabel')
    exact ⟨q', hq', hone ▸ hsupports⟩
  · have hfailed := hearly derived hlabel
    rw [hone] at hfailed
    simp [hdone] at hfailed

/-- New values strip the label of derived supports in place once they are added. -/
theorem ends_add_placed (hq : w.model.parameter (.given p) = .ok q)
    (hplaced : q.hasGenerative = true) (hinfo : q.info = .uniform basis derived)
    (hown : derived.isSelector = false) {values rounded : List α} {label : Label} {checked : Bool}
    (hstorable : label.isSelector = false) (hr : roundList q.digits values = .ok rounded)
    (hbounds : checked = true → q.checkBounds rounded = .ok ())
    (hnew : (q.supports.addAll rounded label).1 = true)
    (hdone : ((q.supports.addAll rounded label).2.strip [derived]).2 = none) :
    Ends (add p values (.given label) checked) w
      (fun anyNew w' => anyNew = true ∧ ∃ q', w'.model.parameter (.given p) = .ok q' ∧
        q'.supports = ((q.supports.addAll rounded label).2.strip [derived]).1)
      fun _ => False := by
  have hderivable : q.Derivable := fun _ => ⟨basis, derived, hinfo, hown⟩
  -- the label and the rounding determine what is added
  have hadmits : ∀ {l rounded'}, q.Admitted values (.given label) checked l rounded' →
      label = l ∧ rounded = rounded' := fun h =>
    ⟨Argument.given.inj h.given, Except.ok.inj (hr.symm.trans h.rounds)⟩
  refine (ends_add_takes hq hderivable).mono ?_ ?_
  · rintro anyNew w' ⟨l, rounded', q', hadmitted, htakes, hq'⟩
    obtain ⟨rfl, rfl⟩ := hadmits hadmitted
    cases htakes with
    | known hold => simp [hnew] at hold
    | beside _ hmissing => simp [hplaced] at hmissing
    | displacing _ _ hinfo' _ _ _ =>
      obtain ⟨rfl, rfl⟩ := GenerativeInfo.uniform.inj (hinfo.symm.trans hinfo')
      exact ⟨rfl, _, hq', rfl⟩
  · rintro w' (⟨-, hnone⟩ | ⟨l, rounded', q', hadmitted, ⟨hinfo', -, hearly, -⟩, -⟩)
    · exact hnone label rounded ⟨rfl, hstorable, hr, hbounds⟩
    · obtain ⟨rfl, rfl⟩ := hadmits hadmitted
      obtain ⟨rfl, rfl⟩ := GenerativeInfo.uniform.inj (hinfo.symm.trans hinfo')
      simp [hdone] at hearly

end Store

/-- Derived supports of several defined ones can always be put in place, under a label that is not
in store yet. They come beside the others, a second call changes nothing, and the supports from
before come back when the label is deleted, and also when a new value is added under another label,
beside that value. -/
theorem materializes_of_requested [LawfulScalar α] [StrictScalar α] {m : Model α} (h : Requested m)
    (hdef : m.Defined) {p : Ref} {q : Parameter α} (hq : m.parameter (.given p) = .ok q)
    {basis : List α} {label : Label} (hinfo : q.info = .uniform basis label)
    (hmissing : q.hasGenerative = false) (hapart : ∀ x, ¬ q.supports.Stores x label)
    (hown : label.isSelector = false) (hseveral : 2 ≤ q.supports.size)
    (hderives : ∀ x ∈ GenerativeInfo.points basis q.supports.values, Scalar.Defined x)
    (e : Environment α) :
    ∃ rounded w' q',
      (∀ owner, q.info.makeSupports q.supports.values owner =
        .ok (GenerativeInfo.points basis q.supports.values)) ∧
      roundList q.digits (GenerativeInfo.points basis q.supports.values) = .ok rounded ∧
      Store.addGenerative p ⟨e, m⟩ = .ok () w' ∧ w'.model.parameter (.given p) = .ok q' ∧
      q.Places q' label rounded ∧
      ∀ e' : Environment α,
        Store.addGenerative p ⟨e', w'.model⟩ = .ok () ⟨e', w'.model⟩ ∧
        Ends (Store.delete p label) ⟨e', w'.model⟩
          (fun _ w'' => ∃ q'', w''.model.parameter (.given p) = .ok q'' ∧
            q''.supports = q.supports)
          (fun _ => False) ∧
        ∀ value stored l checked, l ≠ label → l.isSelector = false →
          roundList q.digits [value] = .ok [stored] →
            (checked = true → q.checkBounds [stored] = .ok ()) →
              q'.supports.contains stored = false →
                Ends (Store.add p [value] (.given l) checked) ⟨e', w'.model⟩
                  (fun anyNew w'' => anyNew = true ∧ ∃ q'',
                    w''.model.parameter (.given p) = .ok q'' ∧
                      q''.supports = (q.supports.add stored l).2)
                  fun _ => False := by
  have htidy := Parameter.tidy_of_requested h p q hq
  have hordered := htidy.ordered (hdef p q hq)
  have hlength : 2 ≤ q.supports.values.length := by
    simpa [SupportMap.values, SupportMap.size] using hseveral
  have hmakes := GenerativeInfo.makeSupports_of_several hinfo hlength
  obtain ⟨rounded, hrounds⟩ := exists_roundList_points (Parameter.digits_pos_of_requested h p q hq)
    hordered htidy.rounded basis
  have hrounded := defined_of_roundList hrounds hderives
  -- what others are derived from are all supports that are stored
  have hbase : ∀ owner, q.info.makeSupports (q.supports.baseValues label) owner =
      .ok (GenerativeInfo.points basis q.supports.values) := by
    rwa [SupportMap.baseValues_of_apart hapart]
  obtain ⟨_, w', hplace, equations, hq'⟩ := (Store.ends_addGenerative_of_missing (w := ⟨e, m⟩) hq
    hmissing hinfo hown hbase hrounds).exists_ok
  -- stripping the label brings the supports from before back
  have hback := SupportMap.strip_addAll_of_apart hordered htidy.labelled hown hapart hrounded
  refine ⟨rounded, w', _, hmakes, hrounds, hplace, hq',
    Parameter.places_of_addAll hordered htidy.labelled hown hapart hrounded rfl rfl,
    fun e' => ⟨?_, ?_, fun value stored l checked hne hstorable hr hbounds hnew => ?_⟩⟩
  · obtain ⟨_, w₂, hagain, rfl⟩ := (Store.ends_addGenerative_of_derived (w := ⟨e', w'.model⟩) hq'
      (.inl rfl)).exists_ok
    exact hagain
  · refine (Store.ends_delete_derived (w := ⟨e', w'.model⟩) hq' hinfo hown
      (congrArg Prod.snd hback)).mono ?_ fun _ h => h
    rintro _ w₂ ⟨q'', hq'', hsupports⟩
    exact ⟨q'', hq'', hsupports.trans (congrArg Prod.fst hback)⟩
  · -- stripping the label and adding the value commute
    have hcomm : ((q.supports.addAll rounded label).2.addAll [stored] l).2.strip [label] =
        ((q.supports.add stored l).2, none) := by
      rw [SupportMap.addAll_cons]
      exact (SupportMap.strip_add_of_new (SupportMap.increasing_addAll hordered hrounded label) hnew
        (Store.coveredBy_singleton hown hne.symm)).trans (by rw [hback])
    have hany : ((q.supports.addAll rounded label).2.addAll [stored] l).1 = true :=
      (SupportMap.addAll_eq_true_iff l).2 ⟨stored, List.mem_singleton_self stored, hnew⟩
    refine (Store.ends_add_placed (w := ⟨e', w'.model⟩) hq' rfl hinfo hown hstorable hr hbounds
      hany (congrArg Prod.snd hcomm)).mono ?_ fun _ h => h
    rintro _ w₂ ⟨hresult, q'', hq'', hsupports⟩
    exact ⟨hresult, q'', hq'', hsupports.trans (congrArg Prod.fst hcomm)⟩

/-- Two significant digits, so that derived values coincide with stored ones and with one
another. -/
theorem materializes_of_requested_coinciding :
    let p : Ref := ⟨0, .parameter, 1⟩
    let m : Model Float := Request.replay { id := 0 }
      [.addParameter (.scalar (.interval 0 1)) "t" (some [0, 0.5, 1]) 0 (some 2)
        (.finiteDifference .backward),
      .setGenerativeInfo p (.given (.uniform [0.5, 0.501, 0.999] .collocation))]
    Requested m ∧ m.Defined ∧ ∃ q w' q', m.parameter (.given p) = .ok q ∧
      q.supports.values = [0, 0.5, 1] ∧
      Store.addGenerative p ⟨{}, m⟩ = .ok () w' ∧ w'.model.parameter (.given p) = .ok q' ∧
      q.Places q' .collocation [0.25, 0.25, 0.5, 0.75, 0.75, 1] ∧
      Store.addGenerative p ⟨{}, w'.model⟩ = .ok () ⟨{}, w'.model⟩ ∧
      Ends (Store.delete p .collocation) ⟨{}, w'.model⟩
        (fun _ w'' => ∃ q'', w''.model.parameter (.given p) = .ok q'' ∧ q''.supports = q.supports)
        (fun _ => False) ∧
      Ends (Store.add p [0.604] (.given .userDefined) true) ⟨{}, w'.model⟩
        (fun anyNew w'' => anyNew = true ∧ ∃ q'', w''.model.parameter (.given p) = .ok q'' ∧
          q''.supports = (q.supports.add 0.6 .userDefined).2)
        fun _ => False := by
  intro p m
  have hr : Requested m := .replay (.start 0 "model") _
  have hdef : m.Defined := Model.defined_of_allDefined (by decide +kernel)
  obtain ⟨q, hq, hdigits, hinfo, hmissing, hinside, hsupports⟩ := Except.exists_of_decide
    (x := m.parameter (.given p)) (fun q => q.digits = 2 ∧
      q.info = .uniform [0.5, 0.501, 0.999] .collocation ∧ q.hasGenerative = false ∧
      (q.checkBounds [0.6]).toOption = some () ∧
      q.supports = ⟨[⟨0, [.userDefined]⟩, ⟨0.5, [.userDefined]⟩, ⟨1, [.userDefined]⟩]⟩)
    (by decide +kernel)
  have hvalues : q.supports.values = [0, 0.5, 1] := by simp [hsupports, SupportMap.values]
  have hnone : ∀ s ∈ q.supports.supports, .collocation ∉ s.labels := by
    rw [hsupports]
    decide
  have hderives : ∀ x ∈ GenerativeInfo.points [0.5, 0.501, 0.999] q.supports.values,
      (x == x) = true := by
    rw [hvalues]
    decide +kernel
  obtain ⟨rounded, w', q', -, hrounds, hplace, hq', hplaces, hthen⟩ :=
    materializes_of_requested hr hdef hq hinfo hmissing (fun x ⟨s, hs, _, hl⟩ => hnone s hs hl) rfl
      (by simp [hsupports, SupportMap.size]) hderives {}
  obtain ⟨hagain, hdelete, hadd⟩ := hthen {}
  -- what the derived values are, and what the added one is rounded to
  obtain ⟨_, hrounds', rfl⟩ := Except.exists_of_decide
    (x := roundList 2 (GenerativeInfo.points [0.5, 0.501, 0.999] [0, 0.5, 1]))
    (fun rounded : List Float => rounded = [0.25, 0.25, 0.5, 0.75, 0.75, 1]) (by decide +kernel)
  obtain ⟨_, hstored, rfl⟩ := Except.exists_of_decide (x := roundList 2 [0.604])
    (fun rounded : List Float => rounded = [0.6]) (by decide +kernel)
  rw [hdigits, hvalues] at hrounds
  obtain rfl := Except.ok.inj (hrounds'.symm.trans hrounds)
  have hnew : q'.supports.contains 0.6 = false := by
    rw [Bool.eq_false_iff, ne_eq, hplaces.values, hsupports]
    decide +kernel
  exact ⟨hr, hdef, q, w', q', hq, hvalues, hplace, hq', hplaces, hagain, hdelete,
    hadd 0.604 0.6 .userDefined true (by decide) rfl (hdigits ▸ hstored)
      (fun _ => Except.eq_ok_of_toOption hinside) hnew⟩

end Discretization
