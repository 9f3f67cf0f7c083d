import Discretization.Proofs.Evaluations

/-!
# Preparations

Before a transcription the supports are prepared: parameters without supports get some, those of
point variables and measures are stored again, derived supports are put in place and derivatives are
evaluated. A new value takes derived supports away, so the values of point variables and measures
stay as long as derived supports have a label of their own.

On a ready model all of that leaves the grid alone, whatever else happened to parameters that
nothing depends on.

## Main definitions

* `Workspace.Keeps`: what no operation on supports changes;
* `Model.Extends`: the second model has more supports;
* `Store.Holds`: values are stored under a label;
* `Store.Restores`: supports within bounds were added;
* `Transcription.Settled`: a model with the grid of another one that was transcribed.

## Main results

* `Transcription.ends_prepareSupports`: after the preparation a model is prepared;
* `Transcription.settled_prepareSupports`: preparing a ready model leaves its grid alone.
-/

namespace Discretization

variable {α : Type}

/-! ## What is kept -/

namespace Workspace

/-- No object changes, parameters keep their digits, their domain and the way their supports are
derived, and the environment has the same rules. -/
structure Keeps (w w' : Workspace α) : Prop where
  objects : w.model.SameObjects w'.model
  parameter : ∀ p q, w.model.parameter (.given p) = .ok q → ∃ q',
    w'.model.parameter (.given p) = .ok q' ∧ q'.digits = q.digits ∧ q'.domain = q.domain ∧
      q'.info = q.info
  environment : w.environment.SameRules w'.environment

instance : IsPreorder (Workspace α) Keeps where
  refl w := ⟨.refl w.model, fun _ q hq => ⟨q, hq, rfl, rfl, rfl⟩, ⟨rfl, rfl⟩⟩
  trans w w₁ w₂ h h' := by
    refine ⟨h.objects.trans h'.objects, fun p q hq => ?_, trans_of _ h.environment h'.environment⟩
    obtain ⟨q₁, hq₁, hd₁, hdom₁, hi₁⟩ := h.parameter p q hq
    obtain ⟨q₂, hq₂, hd₂, hdom₂, hi₂⟩ := h'.parameter p q₁ hq₁
    exact ⟨q₂, hq₂, hd₂.trans hd₁, hdom₂.trans hdom₁, hi₂.trans hi₁⟩

theorem Touches.keeps {p : Ref} {w w' : Workspace α} (h : w.Touches p w') : w.Keeps w' :=
  ⟨h.model.objects, fun _ _ hq => h.model.parameter hq, ⟨h.settings, h.generators⟩⟩

end Workspace

variable [Scalar α]

namespace Model

variable {m m' m'' : Model α} {p : Ref} {q : Parameter α}

/-- The objects are the same, and every parameter has the supports it had, under the labels they
had, and perhaps more. -/
structure Extends (m m' : Model α) : Prop where
  objects : m.SameObjects m'
  parameter : ∀ p q, m.parameter (.given p) = .ok q → ∃ q', m'.parameter (.given p) = .ok q' ∧
    q'.digits = q.digits ∧ q'.info = q.info ∧ q.supports.values ⊆ q'.supports.values
  marks : ∀ p q q', m.parameter (.given p) = .ok q → m'.parameter (.given p) = .ok q' →
    ∀ x label, q.supports.Marks x label → q'.supports.Marks x label

theorem Extends.refl (m : Model α) : Extends m m where
  objects := .refl m
  parameter _ q hq := ⟨q, hq, rfl, rfl, List.Subset.refl _⟩
  marks _ q q' hq hq' _ _ h := by
    rw [hq] at hq'
    cases hq'
    exact h

theorem Extends.trans (h : Extends m m') (h' : Extends m' m'') : Extends m m'' where
  objects := h.objects.trans h'.objects
  parameter p q hq := by
    obtain ⟨q₁, hq₁, hd₁, hi₁, hv₁⟩ := h.parameter p q hq
    obtain ⟨q₂, hq₂, hd₂, hi₂, hv₂⟩ := h'.parameter p q₁ hq₁
    exact ⟨q₂, hq₂, hd₂.trans hd₁, hi₂.trans hi₁, List.Subset.trans hv₁ hv₂⟩
  marks p q q₂ hq hq₂ x label hm := by
    obtain ⟨q₁, hq₁, -⟩ := h.parameter p q hq
    exact h'.marks p q₁ q₂ hq₁ hq₂ x label (h.marks p q q₁ hq hq₁ x label hm)

theorem Extends.gridDefined (h : Extends m m') (hd : m'.GridDefined) : m.GridDefined := by
  intro p hu q hq x hx
  obtain ⟨q', hq', -, -, hsub⟩ := h.parameter p q hq
  exact hd p (by rwa [h.objects.isUsed]) q' hq' x (hsub hx)

theorem contains_of_subset {s s' : SupportMap α} (h : s.values ⊆ s'.values) {x : α}
    (hx : s.contains x = true) : s'.contains x = true := by
  obtain ⟨y, hy, he⟩ := SupportMap.contains_iff.1 hx
  exact SupportMap.contains_iff.2 ⟨y, h hy, he⟩

theorem OnGrid.extend (h : m.OnGrid) (he : Extends m m') : m'.OnGrid where
  points ref v hv name parameters hindexed p x hx q hq := by
    obtain ⟨q₀, hq₀⟩ := he.objects.symm.parameter hq
    obtain ⟨q₁, hq₁, -, -, hsub⟩ := he.parameter p q₀ hq₀
    rw [hq] at hq₁
    cases hq₁
    exact contains_of_subset hsub (h.points ref v (he.objects.pointVariable.1 hv) name parameters
      (he.objects.indexed.1 hindexed) p x hx q₀ hq₀)
  measures ref μ hμ p row hrow q hq x hx rounded hr := by
    obtain ⟨q₀, hq₀⟩ := he.objects.symm.parameter hq
    obtain ⟨q₁, hq₁, hd, -, hsub⟩ := he.parameter p q₀ hq₀
    rw [hq] at hq₁
    cases hq₁
    exact contains_of_subset hsub (h.measures ref μ (he.objects.measure.1 hμ) p row hrow q₀ hq₀ x hx
      rounded (by rwa [← hd]))

/-- Adding values to the supports of one parameter extends a model. -/
theorem Touches.extends {q' : Parameter α} {values : List α} {label : Label} (ht : m.Touches p m')
    (hq : m.parameter (.given p) = .ok q) (hq' : m'.parameter (.given p) = .ok q')
    (hsup : q'.supports = (q.supports.addAll values label).2) : Extends m m' where
  objects := ht.objects
  parameter p₁ q₁ hq₁ := by
    obtain ⟨q₂, hq₂, hd, -, hi⟩ := ht.parameter hq₁
    refine ⟨q₂, hq₂, hd, hi, ?_⟩
    -- values are only added, and to one parameter only
    by_cases hp : p₁ = p
    · subst hp
      rw [hq] at hq₁
      cases hq₁
      rw [hq'] at hq₂
      cases hq₂
      exact hsup ▸ (SupportMap.values_sublist_addAll _ _ _).subset
    · rw [ht.parameter_of_ne (index_ne hq hq₁ hp), hq₁] at hq₂
      cases hq₂
      exact List.Subset.refl _
  marks p₁ q₁ q₂ hq₁ hq₂ x l hm := by
    by_cases hp : p₁ = p
    · subst hp
      rw [hq] at hq₁
      cases hq₁
      rw [hq'] at hq₂
      cases hq₂
      exact hsup ▸ hm.addAll values label
    · rw [ht.parameter_of_ne (index_ne hq hq₁ hp), hq₁] at hq₂
      cases hq₂
      exact hm

theorem Stocked.extend (h : m.Stocked) (he : Extends m m') : m'.Stocked := by
  intro p q hu hq hnil
  obtain ⟨q₀, hq₀⟩ := he.objects.symm.parameter hq
  obtain ⟨q₁, hq₁, -, -, hsub⟩ := he.parameter p q₀ hq₀
  rw [hq] at hq₁
  cases hq₁
  refine h p q₀ (by rwa [← he.objects.isUsed]) hq₀ ?_
  rw [SupportMap.values, SupportMap.values, hnil, List.map_nil, List.subset_nil,
    List.map_eq_nil_iff] at hsub
  exact hsub

omit [Scalar α] in
theorem Underlies.isUsed (h : m.Underlies p) : m.isUsed p = true := by
  obtain ⟨i, v, hv, hp⟩ := h
  have hused : m.usedByVariable p = true :=
    List.any_eq_true.2 ⟨v, Table.mem_objects_of_get? hv, decide_eq_true hp⟩
  simp [Model.isUsed, usage, Usage.any, hused]

/-- The parameters of a variable underlie it, and so do those of a derivative. -/
theorem underlies_of_indexed (hs : m.Sound) {ref : Ref} {name : String} {parameters : List Ref}
    (h : m.indexed ref = .ok (name, parameters)) (hp : p ∈ parameters) : m.Underlies p := by
  obtain ⟨-, ⟨v, -, hv, -, rfl⟩ | ⟨d, -, hd, -, rfl⟩⟩ := indexed_eq_ok.1 h
  · exact ⟨_, v, hv, hp⟩
  · obtain ⟨-, -, i, v, hv, hvd⟩ := hs.derivative _ d hd
    exact ⟨i, v, hv, by rwa [hvd]⟩

/-- A variable depends on its parameters, and so does a derivative. -/
theorem isUsed_of_indexed (hs : m.Sound) {ref : Ref} {name : String} {parameters : List Ref}
    (h : m.indexed ref = .ok (name, parameters)) (hp : p ∈ parameters) : m.isUsed p = true :=
  (underlies_of_indexed hs h hp).isUsed

/-- The parameters of a function underlie variables, if it is not a parameter itself. -/
theorem underlies_of_functionParameters (hs : m.Sound) {ref : Ref} {parameters : List Ref}
    (h : m.functionParameters ref = .ok parameters) (hk : ref.kind ≠ .parameter) :
    ∀ p ∈ parameters, m.Underlies p := by
  revert hk
  refine functionParameters_induction (P := fun ref parameters =>
    ref.kind ≠ .parameter → ∀ p ∈ parameters, m.Underlies p) (fun ref hk hne => absurd hk hne)
    (fun ref _ _ => nofun) (fun ref μ inner hμ _ _ ih _ p hp => ?_)
    (fun ref name parameters hi _ p hp => underlies_of_indexed hs hi hp) h
  obtain ⟨-, -, hfound⟩ := measure_eq_ok.1 hμ
  exact ih (hs.measure _ μ hfound).1 p (List.mem_filter.1 hp).1

/-- Something depends on the parameters of a function, if it is not a parameter itself. -/
theorem isUsed_of_functionParameters (hs : m.Sound) {ref : Ref} {parameters : List Ref}
    (h : m.functionParameters ref = .ok parameters) (hk : ref.kind ≠ .parameter) :
    ∀ p ∈ parameters, m.isUsed p = true :=
  fun p hp => (underlies_of_functionParameters hs h hk p hp).isUsed

/-- A constraint depends on its parameters. -/
theorem isUsed_of_parametersOf (hs : m.Sound) {ref : Ref} {c : Constraint α}
    (hc : m.constraint ref = .ok c) {parameters : List Ref}
    (h : m.parametersOf ref = .ok parameters) : ∀ p ∈ parameters, m.isUsed p = true := by
  obtain ⟨found, hfound, -, rfl⟩ := (parametersOf_eq_ok hc).1 h
  intro p hp
  have hp : p ∈ found.flatten := by simpa using (List.mem_filter.1 hp).2
  obtain ⟨ps, hps, hp⟩ := List.mem_flatten.1 hp
  obtain ⟨term, hterm, hf⟩ := exists_left_of_mem hfound hps
  -- a parameter as a term is used by the constraint, any other term uses its parameters itself
  by_cases hk : term.2.kind = .parameter
  · obtain ⟨-, rfl⟩ | ⟨hk' | hk', -⟩ | ⟨μ, -, hμ, -⟩ | ⟨name, hi⟩ := functionParameters_eq_ok.1 hf
    · rw [List.mem_singleton.1 hp]
      have hused : m.usedByConstraint term.2 = true :=
        List.any_eq_true.2 ⟨c, Table.mem_objects_of_get? (constraint_eq_ok.1 hc).2.2,
          Bool.or_eq_true_iff.2 (.inl (List.any_eq_true.2 ⟨term, hterm, decide_eq_true rfl⟩))⟩
      simp [isUsed, usage, Usage.any, hused]
    · rw [hk] at hk'
      cases hk'
    · rw [hk] at hk'
      cases hk'
    · rw [(measure_eq_ok.1 hμ).2.1] at hk
      cases hk
    · exact isUsed_of_indexed hs hi hp
  · exact isUsed_of_functionParameters hs hf hk p hp

omit [Scalar α] in
/-- A measure depends on the parameters that it integrates over. -/
theorem isUsed_of_measure {ref : Ref} {μ : Measure α} (h : m.measure ref = .ok μ)
    (hp : p ∈ μ.data.parameters) : m.isUsed p = true := by
  obtain ⟨-, -, hμ⟩ := measure_eq_ok.1 h
  have hused : m.usedByMeasure p = true :=
    List.any_eq_true.2 ⟨μ, Table.mem_objects_of_get? hμ, decide_eq_true hp⟩
  simp [isUsed, usage, Usage.any, hused]

omit [Scalar α] in
/-- Labels stay apart as long as the ways in which supports are derived stay. -/
theorem LabelsApart.of_info (h : m.LabelsApart) (ho : m.SameObjects m')
    (hi : ∀ p q q', ((∃ ref name parameters, m.indexed ref = .ok (name, parameters) ∧
        p ∈ parameters) ∨ ∃ ref μ, m.measure ref = .ok μ ∧ p ∈ μ.data.parameters) →
      m.parameter (.given p) = .ok q → m'.parameter (.given p) = .ok q' → q'.info = q.info) :
    m'.LabelsApart where
  points ref v hv name parameters hindexed p hp q' hq' := by
    rw [ho.indexed] at hindexed
    obtain ⟨q, hq⟩ := ho.symm.parameter hq'
    have hinfo := hi p q q' (.inl ⟨v.ref, name, parameters, hindexed, hp⟩) hq hq'
    intro basis derived hd
    exact h.points ref v (ho.pointVariable.1 hv) name parameters hindexed p hp q hq basis derived
      (hinfo.symm.trans hd)
  measures ref μ hμ p hp q' hq' := by
    rw [ho.measure] at hμ
    obtain ⟨q, hq⟩ := ho.symm.parameter hq'
    have hinfo := hi p q q' (.inr ⟨ref, μ, hμ, hp⟩) hq hq'
    intro basis derived hd
    exact h.measures ref μ hμ p hp q hq basis derived (hinfo.symm.trans hd)

theorem SameGrid.labelsApart (h : SameGrid m m') (hs : m.Sound) (ha : m'.LabelsApart) :
    m.LabelsApart := by
  refine ha.of_info h.objects.symm fun p q q' hp hq hq' => ?_
  have hu : m.isUsed p = true := by
    rcases hp with ⟨ref, name, parameters, hindexed, hp⟩ | ⟨ref, μ, hμ, hp⟩
    · exact isUsed_of_indexed hs (h.objects.indexed.1 hindexed) hp
    · exact isUsed_of_measure (h.objects.measure.1 hμ) hp
  exact ((h.used p q' q hu hq' hq).2.1).symm

end Model

omit [Scalar α] in
theorem Workspace.Keeps.info {w w' : Workspace α} (h : w.Keeps w') {p : Ref} {q q' : Parameter α}
    (hq : w.model.parameter (.given p) = .ok q) (hq' : w'.model.parameter (.given p) = .ok q') :
    q'.info = q.info := by
  obtain ⟨q₁, hq₁, -, -, hi⟩ := h.parameter p q hq
  rw [hq'] at hq₁
  cases hq₁
  exact hi

omit [Scalar α] in
theorem Workspace.Keeps.labelsApart {w w' : Workspace α} (h : w.Keeps w') :
    w'.model.LabelsApart ↔ w.model.LabelsApart :=
  ⟨fun ha => ha.of_info h.objects.symm fun _ _ _ _ hq hq' => (h.info hq' hq).symm,
    fun ha => ha.of_info h.objects fun _ _ _ _ hq hq' => h.info hq hq'⟩

/-! ## Stored values -/

namespace Store

open Operation Workspace

variable {w w' w'' : Workspace α} {p : Ref} {q q' : Parameter α} {full : Prop}

/-- A label that can be stored covers itself only. -/
theorem covers_eq_beq {label : Label} (h : label.isSelector = false) (l : Label) :
    label.covers l = (l == label) := by
  rcases label with ⟨kind, measure, internal⟩
  cases kind <;> cases measure <;>
    simp_all [Label.covers, Label.isSelector, LabelKind.selects]

/-- Derived labels cover themselves only. -/
theorem coveredBy_singleton {derived l : Label} (h : derived.isSelector = false)
    (hl : derived ≠ l) : Label.coveredBy [derived] l = false := by
  rw [Label.coveredBy, List.any_cons, List.any_nil, Bool.or_false, covers_eq_beq h,
    beq_eq_false_iff_ne]
  exact hl.symm

theorem Added.marks [LawfulScalar α] {rounded : List α} {label l : Label} {anyNew : Bool}
    (h : Added q q' rounded label anyNew) (hs : q.Sound)
    (hdef : ∀ x ∈ q'.supports.values, Scalar.Defined x) (ha : q.Apart l) {x : α}
    (hm : (q.supports.addAll rounded label).2.Marks x l) : q'.supports.Marks x l := by
  rcases h.supports with hsup | ⟨hgen, -, basis, derived, hinfo, hsup⟩
  · rwa [hsup]
  · obtain ⟨basis', derived', hinfo', hselector, -⟩ := hs.derived hgen
    rw [hinfo] at hinfo'
    cases hinfo'
    rw [hsup] at hdef ⊢
    have hall := defined_of_strip hdef
    have hincreasing := SupportMap.increasing_addAll
      (hs.ordered fun y hy => hall y ((SupportMap.values_sublist_addAll _ _ _).subset hy))
      (SupportMap.defined_of_addAll hall) label
    exact hm.strip hincreasing (coveredBy_singleton hselector (ha basis derived hinfo))

/-- Values are supports of a parameter under a label, once they are rounded. -/
def Holds (m : Model α) (p : Ref) (values : List α) (label : Label) : Prop :=
  ∀ q, m.parameter (.given p) = .ok q → ∃ rounded, roundList q.digits values = .ok rounded ∧
    ∀ x ∈ rounded, q.supports.Marks x label

/-- Supports within bounds were added. On the grid, what was stored under a label apart from that of
derived supports is still stored, and if labels are apart no parameter lost its last support. -/
structure Restores (w w' : Workspace α) : Prop where
  keeps : w.Keeps w'
  defined : w'.model.GridDefined ↔ w.model.GridDefined
  stocked : w'.model.GridDefined → w.model.LabelsApart → w.model.Stocked → w'.model.Stocked
  holds : w'.model.GridDefined → ∀ p values label, w.model.isUsed p = true →
    (∀ q, w.model.parameter (.given p) = .ok q → q.Apart label) →
      Holds w.model p values label → Holds w'.model p values label

theorem Restores.refl (w : Workspace α) : Restores w w where
  keeps := refl_of _ w
  defined := .rfl
  stocked _ _ h := h
  holds _ _ _ _ _ _ h := h

theorem Restores.trans (h : Restores w w') (h' : Restores w' w'') : Restores w w'' where
  keeps := trans_of Keeps h.keeps h'.keeps
  defined := h'.defined.trans h.defined
  stocked hd ha hs := h'.stocked hd (h.keeps.labelsApart.2 ha) (h.stocked (h'.defined.1 hd) ha hs)
  holds hd p values label hu ha hh := by
    refine h'.holds hd p values label (by rwa [h.keeps.objects.isUsed]) (fun q' hq' => ?_)
      (h.holds (h'.defined.1 hd) p values label hu ha hh)
    obtain ⟨q, hq⟩ := h.keeps.objects.symm.parameter hq'
    intro basis derived hinfo
    exact ha q hq basis derived ((h.keeps.info hq hq').symm.trans hinfo)

omit [Scalar α] in
theorem ne_nil_of_subset {s s' : SupportMap α} (h : s.values ⊆ s'.values) (hs : s.supports ≠ []) :
    s'.supports ≠ [] := by
  intro hnil
  rw [SupportMap.values, SupportMap.values, hnil, List.map_nil, List.subset_nil,
    List.map_eq_nil_iff] at h
  exact hs h

section Lawful

variable [LawfulScalar α]

/-- Adding values stores them and keeps what was stored. -/
theorem ends_add_restores (h : w.model.Inv full) {label : Label}
    (ha : w.model.LabelsApart → ∀ q, w.model.parameter (.given p) = .ok q → q.Apart label)
    (values : List α) :
    Ends (add p values (.given label) true) w
      (fun _ w' => w'.model.Inv full ∧ Restores w w' ∧ (w'.model.GridDefined →
        w.model.isUsed p = true → w.model.LabelsApart → Holds w'.model p values label))
      fun w' => w'.model.Inv full := by
  cases hq : w.model.parameter (.given p) with
  | error e => simp [add, hq, h]
  | ok q =>
    refine ((((inv_add h values (.given label) true).and
      (ends_add h.sound hq values (.given label) true)).and
      ((moves_add p values (.given label) true).ends w)).and
      (defined_of_checked_add h.sound values (.given label))).mono ?_ fun _ h' => h'.1.1.1
    rintro anyNew w' ⟨⟨⟨h', -, hdef, -, -, l, rounded, q', hl, hr, hq', hadded⟩, ht⟩, hkept⟩
    cases hl
    obtain ⟨q₁, hq₁, hdigits, -, hinfo⟩ := ht.model.parameter hq
    rw [hq'] at hq₁
    cases hq₁
    have hall : w'.model.DefinedAt p → ∀ x ∈ (q.supports.addAll rounded label).2.values,
        Scalar.Defined x := by
      intro hd
      rcases hadded.supports with hsup | ⟨-, -, basis, derived, -, hsup⟩
      · exact hsup ▸ hd q' hq'
      · exact defined_of_strip (hsup ▸ hd q' hq')
    have hmarks : w'.model.DefinedAt p → q.Apart label → ∀ x ∈ rounded, q'.supports.Marks x label :=
      fun hd hap x hx => hadded.marks (h.sound.parameter p q hq) (hd q' hq') hap
        (SupportMap.marks_addAll q.supports label hx (SupportMap.defined_of_addAll (hall hd) x hx))
    have hused : ∀ p₁, w'.model.isUsed p₁ = w.model.isUsed p₁ := ht.model.objects.isUsed
    have hdefined : w'.model.GridDefined ↔ w.model.GridDefined :=
      ⟨ht.model.toAlters.gridDefined hq fun _ => hdef, fun hd =>
        ht.model.toAlters.gridDefined_of hq hd hkept⟩
    have hother : ∀ {p₁ : Ref} {q₁ : Parameter α}, p₁ ≠ p →
        w'.model.parameter (.given p₁) = .ok q₁ → w.model.parameter (.given p₁) = .ok q₁ :=
      fun hne hq₁ => (ht.model.parameter_of_ne (Model.index_ne hq' hq₁ hne)).1 hq₁
    refine ⟨h', ⟨ht.keeps, hdefined, fun hd hap hs p₁ q₁ hu hq₁ => ?_,
      fun hd p₁ values₁ l₁ hu hap hh q₁ hq₁ => ?_⟩, fun hd hu hap q₁ hq₁ => ?_⟩
    · have hd₁ := hd p₁ hu
      rw [hused] at hu
      by_cases hp : p₁ = p
      · subst hp
        rw [hq'] at hq₁
        cases hq₁
        rcases hadded.supports with hsup | ⟨-, hnew, -⟩
        · rw [hsup]
          exact ne_nil_of_subset (SupportMap.values_sublist_addAll _ _ _).subset (hs p₁ q hu hq)
        · -- a new value is there to stay
          obtain ⟨x, hx⟩ := List.exists_mem_of_ne_nil rounded fun hnil => by
            rw [hadded.flag, hnil, SupportMap.addAll_nil] at hnew
            cases hnew
          obtain ⟨s, hs, -⟩ := hmarks hd₁ (ha hap q hq) x hx
          exact List.ne_nil_of_mem hs
      · exact hs p₁ q₁ hu (hother hp hq₁)
    · by_cases hp : p₁ = p
      · subst hp
        rw [hq'] at hq₁
        cases hq₁
        obtain ⟨rounded₁, hr₁, hold⟩ := hh q hq
        refine ⟨rounded₁, by rwa [hdigits], fun x hx => ?_⟩
        exact hadded.marks (h.sound.parameter p₁ q hq) (hd p₁ (by rwa [hused]) q' hq') (hap q hq)
          ((hold x hx).addAll rounded label)
      · exact hh q₁ (hother hp hq₁)
    · rw [hq'] at hq₁
      cases hq₁
      exact ⟨rounded, by rwa [hdigits], hmarks (hd p (by rwa [hused])) (ha hap q hq)⟩

end Lawful

/-- A loop that stores something in each turn has stored all of it in the end. -/
theorem ends_forIn_restores {γ : Type} {xs : List γ}
    {body : γ → PUnit → Operation α (ForInStep PUnit)} (Stored : γ → Model α → Prop)
    (h : w.model.Inv full)
    (hkeep : ∀ x ∈ xs, ∀ w₁ w₂, w.Keeps w₁ → w₁.model.Sound → Restores w₁ w₂ →
      w₂.model.GridDefined → w₁.model.LabelsApart → Stored x w₁.model → Stored x w₂.model)
    (hbody : ∀ x ∈ xs, ∀ w₁, w.Keeps w₁ → w₁.model.Inv full → Ends (body x ⟨⟩) w₁
      (fun r w₂ => r = .yield ⟨⟩ ∧ w₂.model.Inv full ∧ Restores w₁ w₂ ∧
        (w₂.model.GridDefined → w₁.model.LabelsApart → Stored x w₂.model))
      fun w₂ => w₂.model.Inv full) :
    Ends (forIn xs PUnit.unit body) w
      (fun _ w' => w'.model.Inv full ∧ Restores w w' ∧
        (w'.model.GridDefined → w.model.LabelsApart → ∀ x ∈ xs, Stored x w'.model))
      fun w' => w'.model.Inv full := by
  refine Ends.forIn (fun gone w' => w'.model.Inv full ∧ Restores w w' ∧
    (w'.model.GridDefined → w.model.LabelsApart → ∀ x ∈ gone, Stored x w'.model))
    ⟨h, .refl w, fun _ _ => nofun⟩ ?_
  rintro gone x rest w₁ hxs ⟨h₁, hr₁, hgone⟩
  have hx : x ∈ xs := by simp [hxs]
  refine (hbody x hx w₁ hr₁.keeps h₁).mono ?_ fun _ h' => h'
  rintro r w₂ ⟨hr, h₂, hr₂, hstored⟩
  refine ⟨hr, h₂, hr₁.trans hr₂, fun hd ha y hy => ?_⟩
  have ha₁ := hr₁.keeps.labelsApart.2 ha
  rcases List.mem_append.1 hy with hy | hy
  · -- what an earlier turn stored, later ones keep
    exact hkeep y (by simp [hxs, hy]) w₁ w₂ hr₁.keeps h₁.sound hr₂ hd ha₁
      (hgone (hr₂.defined.1 hd) ha y hy)
  · rw [List.mem_singleton.1 hy]
    exact hstored hd ha₁

/-- Rows that are stored under a label which is none of derived supports are all there in the
end. -/
theorem ends_forIn_add_restores [LawfulScalar α] {γ : Type} (pairs : List (Ref × γ))
    (values : γ → List α) {label : Label} (h : w.model.Inv full)
    (hused : ∀ pair ∈ pairs, w.model.isUsed pair.1 = true)
    (apart : ∀ pair ∈ pairs, ∀ w₁, w.Keeps w₁ → w₁.model.LabelsApart →
      ∀ q, w₁.model.parameter (.given pair.1) = .ok q → q.Apart label) :
    Ends (forIn pairs PUnit.unit fun pair _ => do
        let _ ← add pair.1 (values pair.2) (.given label) true
        return .yield PUnit.unit) w
      (fun _ w' => w'.model.Inv full ∧ Restores w w' ∧ (w'.model.GridDefined → w.model.LabelsApart →
        ∀ pair ∈ pairs, Holds w'.model pair.1 (values pair.2) label))
      fun w' => w'.model.Inv full := by
  have hused : ∀ pair ∈ pairs, ∀ w₁, w.Keeps w₁ → w₁.model.isUsed pair.1 = true :=
    fun pair hpair w₁ hk => by rw [hk.objects.isUsed, hused pair hpair]
  refine ends_forIn_restores (fun (pair : Ref × γ) m => Holds m pair.1 (values pair.2) label) h
    (fun pair hpair w₁ w₂ hk _ hr hd ha hh =>
      hr.holds hd _ _ _ (hused pair hpair w₁ hk) (apart pair hpair w₁ hk ha) hh) ?_
  intro pair hpair w₁ hk h₁
  rw [ends_bind]
  refine (ends_add_restores h₁ (apart pair hpair w₁ hk) (values pair.2)).mono ?_ fun _ h' => h'
  rintro _ w₂ ⟨h₂, hr₂, hholds⟩
  exact (ends_pure _).2 ⟨rfl, h₂, hr₂, fun hd => hholds hd (hused pair hpair w₁ hk)⟩

end Store

namespace Transcription

open Operation Workspace Store

variable {w w' : Workspace α} {p : Ref} {q : Parameter α} {full : Prop}

/-- The values of a point variable are stored on its parameters. -/
def HoldsPoint (m : Model α) (ref : Ref) : Prop :=
  ∀ v, m.pointVariable ref = .ok v → ∀ name parameters, m.indexed v.ref = .ok (name, parameters) →
    ∀ pair ∈ parameters.zip v.values, Holds m pair.1 [pair.2] .userDefined

/-- The supports of a measure are stored on its parameters. -/
def HoldsMeasure (m : Model α) (ref : Ref) : Prop :=
  ∀ μ, m.measure ref = .ok μ → ∀ pair ∈ μ.data.parameters.zip μ.data.supports,
    Holds m pair.1 pair.2 μ.data.label

/-- What is stored for a point variable stays so while supports are restored. -/
theorem HoldsPoint.restores {ref : Ref} (h : HoldsPoint w.model ref) (hs : w.model.Sound)
    (hr : Restores w w') (hd : w'.model.GridDefined) (ha : w.model.LabelsApart) :
    HoldsPoint w'.model ref := by
  intro v hv name parameters hindexed pair hpair
  rw [hr.keeps.objects.pointVariable] at hv
  rw [hr.keeps.objects.indexed] at hindexed
  have hp := (List.of_mem_zip hpair).1
  exact hr.holds hd _ _ _ (Model.isUsed_of_indexed hs hindexed hp)
    (ha.points ref v hv name parameters hindexed pair.1 hp)
    (h v hv name parameters hindexed pair hpair)

/-- What is stored for a measure stays so while supports are restored. -/
theorem HoldsMeasure.restores {ref : Ref} (h : HoldsMeasure w.model ref) (hr : Restores w w')
    (hd : w'.model.GridDefined) (ha : w.model.LabelsApart) : HoldsMeasure w'.model ref := by
  intro μ hμ pair hpair
  rw [hr.keeps.objects.measure] at hμ
  have hp := (List.of_mem_zip hpair).1
  exact hr.holds hd _ _ _ (Model.isUsed_of_measure hμ hp) (ha.measures ref μ hμ pair.1 hp)
    (h μ hμ pair hpair)

section Lawful

variable [LawfulScalar α]

/-- The turn of a point variable, which is read from the model that the loop started with. -/
theorem ends_restorePoint (h : w'.model.Inv full) (hk : w.Keeps w') (ref : Ref) :
    Ends (do
        let v ← check (w.model.pointVariable ref)
        let (_, parameters) ← check (w.model.indexed v.ref)
        for (p, value) in parameters.zip v.values do
          let _ ← Store.add p [value] (.given .userDefined) true
        return ForInStep.yield PUnit.unit : Operation α (ForInStep PUnit)) w'
      (fun r w₂ => r = .yield ⟨⟩ ∧ w₂.model.Inv full ∧ Restores w' w₂ ∧
        (w₂.model.GridDefined → w'.model.LabelsApart → HoldsPoint w₂.model ref))
      fun w₂ => w₂.model.Inv full := by
  rw [ends_bind, ends_check]
  refine ⟨fun v hv => ?_, fun _ _ => h⟩
  rw [ends_bind, ends_check]
  refine ⟨fun ⟨name, parameters⟩ hindexed => ?_, fun _ _ => h⟩
  dsimp only
  rw [ends_bind]
  have hused : ∀ pair ∈ parameters.zip v.values, w'.model.isUsed pair.1 = true :=
    fun pair hpair => Model.isUsed_of_indexed h.sound (hk.objects.indexed.2 hindexed)
      (List.of_mem_zip hpair).1
  refine (ends_forIn_add_restores (parameters.zip v.values) (fun x => [x]) h hused
    fun pair hpair w₁ hk₁ ha => ?_).mono ?_ fun _ h' => h'
  · have hk := trans_of Keeps hk hk₁
    exact ha.points ref v (hk.objects.pointVariable.2 hv) name parameters
      (hk.objects.indexed.2 hindexed) pair.1 (List.of_mem_zip hpair).1
  · rintro _ w₂ ⟨h₂, hr₂, hall⟩
    refine (ends_pure _).2 ⟨rfl, h₂, hr₂, fun hd ha v' hv' name' parameters' hindexed' => ?_⟩
    -- the objects stay, so the values are those of the point variable that was read
    have hk := trans_of Keeps hk hr₂.keeps
    rw [hk.objects.pointVariable, hv] at hv'
    cases hv'
    rw [hk.objects.indexed, hindexed] at hindexed'
    cases hindexed'
    exact hall hd ha

/-- The turn of a measure. -/
theorem ends_restoreMeasure (h : w'.model.Inv full) (hk : w.Keeps w') (ref : Ref) :
    Ends (do
        let data := (← check (w.model.measure ref)).data
        for (p, row) in data.parameters.zip data.supports do
          let _ ← Store.add p row (.given data.label) true
        return ForInStep.yield PUnit.unit : Operation α (ForInStep PUnit)) w'
      (fun r w₂ => r = .yield ⟨⟩ ∧ w₂.model.Inv full ∧ Restores w' w₂ ∧
        (w₂.model.GridDefined → w'.model.LabelsApart → HoldsMeasure w₂.model ref))
      fun w₂ => w₂.model.Inv full := by
  rw [ends_bind, ends_check]
  refine ⟨fun μ hμ => ?_, fun _ _ => h⟩
  rw [ends_bind]
  have hused : ∀ pair ∈ μ.data.parameters.zip μ.data.supports, w'.model.isUsed pair.1 = true :=
    fun pair hpair => Model.isUsed_of_measure (hk.objects.measure.2 hμ) (List.of_mem_zip hpair).1
  refine (ends_forIn_add_restores (μ.data.parameters.zip μ.data.supports) (fun row => row) h hused
    fun pair hpair w₁ hk₁ ha => ?_).mono ?_ fun _ h' => h'
  · have hk := trans_of Keeps hk hk₁
    exact ha.measures ref μ (hk.objects.measure.2 hμ) pair.1 (List.of_mem_zip hpair).1
  · rintro _ w₂ ⟨h₂, hr₂, hall⟩
    refine (ends_pure _).2 ⟨rfl, h₂, hr₂, fun hd ha μ' hμ' => ?_⟩
    rw [(trans_of Keeps hk hr₂.keeps).objects.measure, hμ] at hμ'
    cases hμ'
    exact hall hd ha

/-- What point variables and measures need is stored again, and nothing gets lost. -/
theorem ends_restoreSupports (h : w.model.Inv full) :
    Ends restoreSupports w
      (fun _ w' => w'.model.Inv full ∧ Restores w w' ∧ (w'.model.GridDefined → w.model.LabelsApart →
        (∀ ref ∈ w'.model.liveRefs .pointVariable, HoldsPoint w'.model ref) ∧
          ∀ ref ∈ w'.model.liveRefs .measure, HoldsMeasure w'.model ref))
      fun w' => w'.model.Inv full := by
  unfold restoreSupports
  rw [ends_bind, ends_model, ends_bind]
  refine (ends_forIn_restores (fun ref m => HoldsPoint m ref) h
    (fun ref _ w₁ w₂ _ hs hr hd ha hh => hh.restores hs hr hd ha)
    fun ref _ w₁ hk₁ h₁ => ends_restorePoint h₁ hk₁ ref).mono ?_ fun _ h' => h'
  rintro _ w₁ ⟨h₁, hr₁, hpoints⟩
  rw [ends_bind]
  refine (ends_forIn_restores (fun ref m => HoldsMeasure m ref) h₁
    (fun ref _ w₁ w₂ _ _ hr hd ha hh => hh.restores hr hd ha)
    fun ref _ w₂ hk₂ h₂ => ends_restoreMeasure h₂ (trans_of Keeps hr₁.keeps hk₂) ref).mono ?_
    fun _ h' => h'
  rintro _ w₂ ⟨h₂, hr₂, hmeasures⟩
  have hr := hr₁.trans hr₂
  refine (ends_pure _).2 ⟨h₂, hr, fun hd ha => ⟨fun ref href => ?_, fun ref href => ?_⟩⟩
  · rw [hr.keeps.objects.liveRefs] at href
    exact (hpoints (hr₂.defined.1 hd) ha ref href).restores h₁.sound hr₂ hd
      (hr₁.keeps.labelsApart.2 ha)
  · rw [hr.keeps.objects.liveRefs] at href
    exact hmeasures hd (hr₁.keeps.labelsApart.2 ha) ref href

omit [LawfulScalar α] in
theorem contains_of_marks {s : SupportMap α} {x : α} {label : Label} (h : s.Marks x label) :
    s.contains x = true := by
  obtain ⟨support, hs, he, -⟩ := h
  exact SupportMap.contains_iff.2 ⟨support.value, List.mem_map_of_mem hs, he⟩

omit [LawfulScalar α] in
/-- What is stored for point variables and measures is on the grid. -/
theorem onGrid_of_holds {m : Model α} (hs : m.Sound)
    (hpoints : ∀ ref ∈ m.liveRefs .pointVariable, HoldsPoint m ref)
    (hmeasures : ∀ ref ∈ m.liveRefs .measure, HoldsMeasure m ref) : m.OnGrid where
  points ref v hv name parameters hindexed p x hx q hq := by
    obtain ⟨-, -, hfound⟩ := Model.pointVariable_eq_ok.1 hv
    obtain ⟨name', parameters', hindexed', -, hround⟩ := hs.point _ v hfound
    rw [hindexed] at hindexed'
    cases hindexed'
    obtain ⟨rounded, hr, hmarks⟩ := hpoints ref (Model.mem_liveRefs_pointVariable.2 ⟨v, hv⟩) v hv
      name parameters hindexed (p, x) hx q hq
    rw [hround p x hx q hq] at hr
    cases hr
    exact contains_of_marks (hmarks x List.mem_cons_self)
  measures ref μ hμ p row hrow q hq x hx rounded hr := by
    obtain ⟨roundedRow, hrr, hmarks⟩ := hmeasures ref (Model.mem_liveRefs_measure.2 ⟨μ, hμ⟩) μ hμ
      (p, row) hrow q hq
    obtain ⟨y, hy, hxy⟩ := exists_right_of_mem (roundList_eq_ok.1 hrr).2 hx
    rw [hr] at hxy
    cases hxy
    exact contains_of_marks (hmarks rounded hy)

/-- Filling in the supports of a parameter that has none gives it some. -/
theorem ends_fillIn_stocks (h : w.model.Inv full) (he : w.environment.Supplies)
    (hq : w.model.parameter (.given p) = .ok q) :
    Ends (fillIn p none false none) w
      (fun _ w' => ∃ q', w'.model.parameter (.given p) = .ok q' ∧ q'.supports.supports ≠ [])
      fun _ => True := by
  unfold fillIn
  rw [ends_bind, ends_onEnvironment]
  refine ((Generation.ends_defaultCount he).and (Environment.moves_defaultCount.ends _)).mono ?_
    fun _ _ => trivial
  rintro count e ⟨hcount, hrules⟩
  have he' := he.of_sameRules hrules
  simp only [ends_bind, ends_query, hq, implies_true, and_true, Except.ok.injEq, forall_eq',
    Bool.false_or]
  rw [ends_ite]
  refine ⟨fun hempty => ?_, fun hsome => ?_⟩
  · simp only [Bool.and_eq_true, decide_eq_true_eq] at hempty
    -- no supports are stored, so that values are generated and added
    have hnil : q.supports.supports = [] := List.length_eq_zero_iff.1 (by
      have := hempty.1
      rw [SupportMap.size] at this
      omega)
    obtain ⟨domain, hdomain⟩ := (h.sound.parameter p q hq).scalar
    unfold generateAndAdd
    simp only [ends_bind, ends_query, hq, implies_true, and_true, Except.ok.injEq, forall_eq',
      ends_onEnvironment]
    rw [hdomain, if_neg (by simp [SupportMap.size, hnil])]
    refine (Generation.ends_generate e domain none _ (some q.digits) none).mono ?_
      fun _ _ => trivial
    rintro ⟨values, label⟩ e₂ hgenerated
    have hvalues : values.entries ≠ [] := (hgenerated (he'.delivers label)).1
    refine (ends_add (w := { w with environment := e₂ }) h.sound hq values.entries (.given label)
      true).mono ?_ fun _ _ => trivial
    rintro anyNew w' ⟨-, -, -, -, l, rounded, q', hl, hr, hq', hadded⟩
    refine (ends_pure _).2 ⟨q', hq', ?_⟩
    -- derived supports in place would be stored supports already
    rcases hadded.supports with hsup | ⟨hgen, -⟩
    · obtain ⟨x, hx⟩ := List.exists_mem_of_ne_nil rounded fun hempty => hvalues (by
        have hlength := length_of_roundList hr
        rw [hempty] at hlength
        exact List.length_eq_zero_iff.1 hlength.symm)
      intro hnil'
      have hstored := SupportMap.stores_addAll q.supports l hx
      rw [← hsup, SupportMap.values, hnil'] at hstored
      simp at hstored
    · obtain ⟨-, -, -, -, hne⟩ := (h.sound.parameter p q hq).derived hgen
      exact absurd hnil hne
  · refine (ends_pure _).2 ⟨q, hq, fun hnil => hsome ?_⟩
    rw [SupportMap.size, hnil]
    simp only [List.length_nil, Nat.cast_zero, decide_true, Bool.true_and, decide_eq_true_eq]
    exact hcount

theorem ends_fillInAll (h : w.model.Inv full) (he : full → w.environment.Supplies) :
    Ends (forIn (w.model.liveRefs .parameter) PUnit.unit fun p _ => do
        fillIn p none false none
        return .yield PUnit.unit) w
      (fun _ w' => w'.model.Inv full ∧ w.Keeps w' ∧ (full → w'.model.Stocked))
      fun w' => w'.model.Inv full := by
  refine (Ends.forIn (fun (gone : List Ref) w' => w'.model.Inv full ∧ w.Keeps w' ∧
    (full → ∀ p ∈ gone, ∃ q, w'.model.parameter (.given p) = .ok q ∧ q.supports.supports ≠ []))
    ⟨h, refl_of _ w, fun _ => nofun⟩ ?_).mono ?_ fun _ h' => h'
  · rintro gone p rest w₁ hxs ⟨h₁, hk₁, hgone⟩
    have hp : p ∈ w.model.liveRefs .parameter := by simp [hxs]
    obtain ⟨q, hq⟩ := Model.mem_liveRefs_parameter.1 hp
    obtain ⟨q₁, hq₁, -⟩ := hk₁.parameter p q hq
    have hstocks : Ends (fillIn p none false none) w₁ (fun _ w' => full →
        ∃ q', w'.model.parameter (.given p) = .ok q' ∧ q'.supports.supports ≠ [])
        fun _ => True := by
      by_cases hfull : full
      · exact (ends_fillIn_stocks h₁ ((he hfull).of_sameRules hk₁.environment) hq₁).mono
          (fun _ _ h' _ => h') fun _ h' => h'
      · exact .of_forall (fun _ _ h' => absurd h' hfull) fun _ => trivial
    rw [ends_bind]
    refine (((inv_of_moves (keepsInv_fillIn p none false none) h₁).and hstocks).and
      ((touches_fillIn p none false none).ends w₁)).mono ?_ fun _ h' => h'.1.1
    rintro _ w₂ ⟨⟨h₂, hnew⟩, ht⟩
    refine (ends_pure _).2 ⟨rfl, h₂, trans_of Keeps hk₁ ht.keeps, fun hfull p' hp' => ?_⟩
    -- filling in one parameter leaves the others stocked
    by_cases hpp : p' = p
    · exact hpp ▸ hnew hfull
    · have hp' : p' ∈ gone := by simpa [hpp] using hp'
      obtain ⟨q', hq', hne'⟩ := hgone hfull p' hp'
      exact ⟨q', (ht.model.parameter_of_ne (Model.index_ne hq₁ hq' hpp)).2 hq', hne'⟩
  · rintro _ w' ⟨h', hk, hall⟩
    refine ⟨h', hk, fun hfull p q _ hq => ?_⟩
    have hp : p ∈ w.model.liveRefs .parameter := by
      rw [← hk.objects.liveRefs]
      exact Model.mem_liveRefs_parameter.2 ⟨q, hq⟩
    obtain ⟨q', hq', hne⟩ := hall hfull p hp
    rw [hq] at hq'
    cases hq'
    exact hne

theorem ends_addGenerativeAll (h : w.model.Inv full) {ps : List Ref}
    (hps : ∀ p, p ∈ ps ↔ ∃ q, w.model.parameter (.given p) = .ok q) :
    Ends (forIn ps PUnit.unit fun p _ => do
        addGenerative p
        return .yield PUnit.unit) w
      (fun _ w' => w'.model.Inv full ∧ w.Keeps w' ∧ w.model.Extends w'.model ∧ w'.model.Derived)
      fun w' => w'.model.Inv full := by
  refine (Ends.forIn (fun (gone : List Ref) w' => w'.model.Inv full ∧ w.Keeps w' ∧
    w.model.Extends w'.model ∧ ∀ p ∈ gone, ∃ q, w'.model.parameter (.given p) = .ok q ∧
      (q.hasGenerative = true ∨ q.info = .none))
    ⟨h, refl_of _ w, .refl _, nofun⟩ ?_).mono ?_ fun _ h' => h'
  · rintro gone p rest w₁ hxs ⟨h₁, hk₁, hx₁, hgone⟩
    have hp : p ∈ ps := by simp [hxs]
    obtain ⟨q, hq⟩ := (hps p).1 hp
    obtain ⟨q₁, hq₁, -⟩ := hk₁.parameter p q hq
    rw [ends_bind]
    refine (ends_addGenerative h₁ hq₁).mono ?_ fun _ h' => h'.1
    rintro _ w₂ ⟨h₂, ht, -, q₂, values, label, hq₂, hderived, hsup⟩
    refine (ends_pure _).2 ⟨rfl, h₂, trans_of Keeps hk₁ ht.keeps,
      hx₁.trans (ht.model.extends hq₁ hq₂ hsup), fun p' hp' => ?_⟩
    by_cases hpp : p' = p
    · exact hpp ▸ ⟨q₂, hq₂, hderived⟩
    · have hp' : p' ∈ gone := by simpa [hpp] using hp'
      obtain ⟨q', hq', hd'⟩ := hgone p' hp'
      exact ⟨q', (ht.model.parameter_of_ne (Model.index_ne hq₁ hq' hpp)).2 hq', hd'⟩
  · rintro _ w' ⟨h', hk, hx, hall⟩
    refine ⟨h', hk, hx, fun p q hq => ?_⟩
    obtain ⟨q', hq', hd⟩ := hall p ((hps p).2 (hk.objects.symm.parameter hq))
    rw [hq] at hq'
    cases hq'
    exact hd

omit [LawfulScalar α] in
/-- Evaluating leaves all supports as they are. -/
theorem extends_of_evaluates (h : Evaluation.Evaluates w w') : w.model.Extends w'.model where
  objects := h.objects
  parameter p q hq := by
    obtain ⟨stored, hq'⟩ := h.parameters p q hq
    exact ⟨_, hq', rfl, rfl, List.Subset.refl _⟩
  marks p q q' hq hq' x label hm := by
    obtain ⟨stored, hq₁⟩ := h.parameters p q hq
    rw [hq'] at hq₁
    cases hq₁
    exact hm

/-- The passes after filling in supports: what point variables and measures need is stored, then
supports are only added, all derived supports get in place, and all derivatives get equations. -/
theorem ends_restoreAndDerive (h : w.model.Inv full) {ps : List Ref}
    (hps : ∀ p, p ∈ ps ↔ ∃ q, w.model.parameter (.given p) = .ok q) :
    Ends (do
        restoreSupports
        for p in ps do
          addGenerative p
        Evaluation.evaluateAll) w
      (fun _ w' => w'.model.Inv full ∧ w.Keeps w' ∧ w'.model.Derived ∧
        (∀ d ∈ w'.model.liveRefs .derivative, ∃ equations,
          w'.model.equations? d.index = some equations) ∧
        ∃ w₁, Restores w w₁ ∧ w₁.model.Sound ∧ w₁.model.Extends w'.model ∧
          (w₁.model.GridDefined → w.model.LabelsApart →
            (∀ ref ∈ w₁.model.liveRefs .pointVariable, HoldsPoint w₁.model ref) ∧
              ∀ ref ∈ w₁.model.liveRefs .measure, HoldsMeasure w₁.model ref))
      fun w' => w'.model.Inv full := by
  rw [ends_bind]
  refine (ends_restoreSupports h).mono ?_ fun _ h' => h'
  rintro _ w₁ ⟨h₁, hr₁, hholds⟩
  rw [ends_bind]
  refine (ends_addGenerativeAll h₁ fun p => ?_).mono ?_ fun _ h' => h'
  · rw [hps, ← Model.mem_liveRefs_parameter, ← Model.mem_liveRefs_parameter,
      hr₁.keeps.objects.liveRefs]
  rintro _ w₂ ⟨h₂, hk₂, hx₂, hderived⟩
  refine (Evaluation.ends_evaluateAll h₂ hderived).mono ?_ fun _ h' => h'
  rintro _ w₃ ⟨h₃, he₃, henv, hevaluated⟩
  -- evaluation changes no more of a parameter than its flag
  have hk₃ : w₂.Keeps w₃ := ⟨he₃.objects, fun p q hq => by
    obtain ⟨stored, hq'⟩ := he₃.parameters p q hq
    exact ⟨_, hq', rfl, rfl, rfl⟩, by rw [henv]; exact refl_of _ _⟩
  exact ⟨h₃, trans_of Keeps hr₁.keeps (trans_of Keeps hk₂ hk₃), he₃.derived hderived, hevaluated,
    w₁, hr₁, h₁.sound, hx₂.trans (extends_of_evaluates he₃), hholds⟩

/-- After the preparation the supports are ready for a transcription. -/
theorem ends_prepareSupports (h : w.model.Inv full) (he : full → w.environment.Supplies) :
    Ends prepareSupports w
      (fun _ w' => w'.model.Inv full ∧ w.Keeps w' ∧ (w'.model.GridDefined → w'.model.Prepared full))
      fun w' => w'.model.Inv full := by
  unfold prepareSupports
  rw [ends_bind, ends_model]
  dsimp only
  rw [ends_bind]
  refine (ends_fillInAll h he).mono ?_ fun _ h' => h'
  rintro _ w₁ ⟨h₁, hk₁, hstocked⟩
  refine (ends_restoreAndDerive h₁ fun p => ?_).mono ?_ fun _ h' => h'
  · rw [← Model.mem_liveRefs_parameter, hk₁.objects.liveRefs]
  rintro _ w₃ ⟨h₃, hk₃, hderived, hevaluated, w₂, hr₂, hs₂, hx₂, hholds⟩
  refine ⟨h₃, trans_of Keeps hk₁ hk₃, fun hdef => ⟨hderived, hevaluated, fun ha => ?_⟩⟩
  have hdef₂ := hx₂.gridDefined hdef
  have ha₁ := hk₃.labelsApart.1 ha
  obtain ⟨hpoints, hmeasures⟩ := hholds hdef₂ ha₁
  exact ⟨(onGrid_of_holds hs₂ hpoints hmeasures).extend hx₂,
    fun hfull => (hr₂.stocked hdef₂ ha₁ (hstocked hfull)).extend hx₂⟩

/-! ## Preparing a ready model -/

/-- A model with the grid of another one that was prepared and transcribed. -/
structure Settled (full : Prop) (built : Model α) (w : Workspace α) : Prop where
  inv : w.model.Inv full
  grid : built.SameGrid w.model

variable {built : Model α}

omit [LawfulScalar α] in
/-- Nothing happens to the grid around a parameter that nothing depends on. -/
theorem Settled.of_unused (h : Settled full built w) (hq : w.model.parameter (.given p) = .ok q)
    (hu : w.model.isUsed p = false) (ht : w.Touches p w') (h' : w'.model.Inv full) :
    Settled full built w' :=
  ⟨h', h.grid.trans (ht.model.sameGrid_of_unused hq hu)⟩

omit [LawfulScalar α] in
/-- A parameter that something depends on has the supports that it was transcribed with. -/
theorem Settled.parameter (h : Settled full built w) (hq : w.model.parameter (.given p) = .ok q) :
    ∃ q₀, built.parameter (.given p) = .ok q₀ ∧ q.digits = q₀.digits ∧
      (w.model.isUsed p = true → q.supports.values = q₀.supports.values ∧ q.info = q₀.info ∧
        (q₀.hasGenerative = true → q.hasGenerative = true)) := by
  obtain ⟨q₀, hq₀⟩ := h.grid.objects.symm.parameter hq
  obtain ⟨q₁, hq₁, hd⟩ := h.grid.digits p q₀ hq₀
  rw [hq] at hq₁
  cases hq₁
  exact ⟨q₀, hq₀, hd, fun hu => h.grid.used p q₀ q (by rwa [← h.grid.objects.isUsed]) hq₀ hq⟩

theorem settled_fillIn (h : Settled full built w) (hs : built.Stocked)
    (hq : w.model.parameter (.given p) = .ok q) :
    Ends (fillIn p none false none) w (fun _ w' => Settled full built w') fun _ => True := by
  -- unused parameters may change as they like, used ones have supports
  cases hu : w.model.isUsed p with
  | false =>
    exact ((inv_of_moves (keepsInv_fillIn p none false none) h.inv).and
      ((touches_fillIn p none false none).ends w)).mono
      (fun _ _ h' => h.of_unused hq hu h'.2 h'.1) fun _ _ => trivial
  | true =>
    obtain ⟨q₀, hq₀, -, hused⟩ := h.parameter hq
    have hne : q.supports.size ≠ 0 := by
      intro hsize
      refine hs p q₀ (by rwa [← h.grid.objects.isUsed]) hq₀ ?_
      have hv := (hused hu).1
      rw [SupportMap.values, List.length_eq_zero_iff.1 hsize, List.map_nil] at hv
      exact List.map_eq_nil_iff.1 hv.symm
    simp only [fillIn, ends_bind, ends_onEnvironment]
    refine (Environment.moves_defaultCount.ends w.environment).mono ?_ fun _ _ => trivial
    intro count e _
    rw [ends_query_of hq, ends_ite]
    refine ⟨fun hempty => ?_, fun _ => (ends_pure _).2 ⟨h.inv, h.grid⟩⟩
    simp only [Bool.false_or, Bool.and_eq_true, decide_eq_true_eq] at hempty
    omega

theorem settled_add (h : Settled full built w) (hq : w.model.parameter (.given p) = .ok q)
    {values : List α} (hstored : ∀ rounded, roundList q.digits values = .ok rounded →
      ∀ x ∈ rounded, q.supports.contains x = true) (label : Argument Label) (checked : Bool) :
    Ends (add p values label checked) w (fun _ w' => Settled full built w') fun _ => True := by
  refine ((inv_add h.inv values label checked).and
    (ends_add h.inv.sound hq values label checked)).mono ?_ fun _ _ => trivial
  rintro anyNew w' ⟨h', -, -, hgrid, -, l, rounded, q', -, hr, -, hadded⟩
  refine ⟨h', h.grid.trans (hgrid ?_)⟩
  rw [hadded.flag, SupportMap.addAll_of_contained l (hstored rounded hr)]

theorem settled_addGenerative (h : Settled full built w) (hd : built.Derived)
    (hq : w.model.parameter (.given p) = .ok q) :
    Ends (addGenerative p) w (fun _ w' => Settled full built w') fun _ => True := by
  refine (ends_addGenerative h.inv hq).mono ?_ fun _ _ => trivial
  rintro _ w' ⟨h', ht, hsame, -⟩
  cases hu : w.model.isUsed p with
  | false => exact h.of_unused hq hu ht h'
  | true =>
    obtain ⟨q₀, hq₀, -, hused⟩ := h.parameter hq
    obtain ⟨-, hinfo, hgen⟩ := hused hu
    rw [hsame ((hd p q₀ hq₀).imp hgen hinfo.trans)]
    exact h

theorem settled_evaluate (h : Settled full built w) (hp : built.Prepared full) {d : Ref}
    (hd : d ∈ w.model.liveRefs .derivative) :
    Ends (Evaluation.evaluate d) w (fun _ w' => Settled full built w') fun _ => True := by
  refine (Evaluation.ends_evaluate h.inv d).mono ?_ fun _ _ => trivial
  rintro equations w' ⟨-, hsame, -⟩
  rw [h.grid.objects.liveRefs] at hd
  obtain ⟨stored, hstored⟩ := hp.evaluated d hd
  rw [hsame (by rw [h.grid.equations d hd, hstored]; rfl)]
  exact h

omit [LawfulScalar α] in
theorem settled_forIn {γ : Type} {xs : List γ} {body : γ → PUnit → Operation α (ForInStep PUnit)}
    (h : Settled full built w) (hbody : ∀ x ∈ xs, ∀ w₁, Settled full built w₁ →
      Ends (body x ⟨⟩) w₁ (fun r w₂ => r = .yield ⟨⟩ ∧ Settled full built w₂) fun _ => True) :
    Ends (forIn xs PUnit.unit body) w (fun _ w' => Settled full built w') fun _ => True :=
  Ends.forIn (fun _ w' => Settled full built w') h fun _ x _ w₁ hxs h₁ =>
    hbody x (by simp [hxs]) w₁ h₁

omit [LawfulScalar α] in
theorem Settled.sameObjects (h : Settled full built w) (h' : Settled full built w') :
    w.model.SameObjects w'.model :=
  h.grid.objects.symm.trans h'.grid.objects

omit [LawfulScalar α] in
/-- The values of a point variable are rounded, and they are on the grid. -/
theorem Settled.contains_of_point (h : Settled full built w) (hg : built.OnGrid) {ref : Ref}
    {v : PointVariable α} (hv : w.model.pointVariable ref = .ok v) {name : String}
    {parameters : List Ref} (hindexed : w.model.indexed v.ref = .ok (name, parameters)) {x : α}
    (hpair : (p, x) ∈ parameters.zip v.values) (hq : w.model.parameter (.given p) = .ok q)
    {rounded : List α} (hr : roundList q.digits [x] = .ok rounded) :
    ∀ y ∈ rounded, q.supports.contains y = true := by
  obtain ⟨-, -, hfound⟩ := Model.pointVariable_eq_ok.1 hv
  obtain ⟨name', parameters', hindexed', -, hround⟩ := h.inv.sound.point _ v hfound
  rw [hindexed] at hindexed'
  cases hindexed'
  rw [hround p x hpair q hq] at hr
  cases hr
  intro y hy
  rw [List.mem_singleton.1 hy]
  obtain ⟨q₀, hq₀, -, hused⟩ := h.parameter hq
  have hvalues := (hused (Model.isUsed_of_indexed h.inv.sound hindexed
    (List.of_mem_zip hpair).1)).1
  exact Model.contains_of_subset (by rw [hvalues]; exact List.Subset.refl _)
    (hg.points ref v (h.grid.objects.pointVariable.1 hv) name parameters
      (h.grid.objects.indexed.1 hindexed) p x hpair q₀ hq₀)

omit [LawfulScalar α] in
/-- The rounded supports of a measure are on the grid. -/
theorem Settled.contains_of_measure (h : Settled full built w) (hg : built.OnGrid) {ref : Ref}
    {μ : Measure α} (hμ : w.model.measure ref = .ok μ) {row : List α}
    (hpair : (p, row) ∈ μ.data.parameters.zip μ.data.supports)
    (hq : w.model.parameter (.given p) = .ok q) {rounded : List α}
    (hr : roundList q.digits row = .ok rounded) : ∀ y ∈ rounded, q.supports.contains y = true := by
  intro y hy
  obtain ⟨x, hx, hxy⟩ := exists_left_of_mem (roundList_eq_ok.1 hr).2 hy
  obtain ⟨q₀, hq₀, hdigits, hused⟩ := h.parameter hq
  have hvalues := (hused (Model.isUsed_of_measure hμ (List.of_mem_zip hpair).1)).1
  exact Model.contains_of_subset (by rw [hvalues]; exact List.Subset.refl _)
    (hg.measures ref μ (h.grid.objects.measure.1 hμ) p row hpair q₀ hq₀ x hx y
      (by rwa [← hdigits]))

theorem settled_restoreSupports (h : Settled full built w) (hg : built.OnGrid) :
    Ends restoreSupports w (fun _ w' => Settled full built w') fun _ => True := by
  unfold restoreSupports
  rw [ends_bind, ends_model, ends_bind]
  refine (settled_forIn h fun ref _ w₁ h₁ => ?_).mono ?_ fun _ _ => trivial
  · rw [ends_bind, ends_check]
    refine ⟨fun v hv => ?_, fun _ _ => trivial⟩
    rw [ends_bind, ends_check]
    refine ⟨fun ⟨name, parameters⟩ hindexed => ?_, fun _ _ => trivial⟩
    dsimp only
    rw [ends_bind]
    refine (settled_forIn h₁ ?_).mono (fun _ w₂ h₂ => (ends_pure _).2 ⟨rfl, h₂⟩) fun _ _ => trivial
    rintro ⟨p, x⟩ hpair w₂ h₂
    rw [ends_bind]
    have ho := h.sameObjects h₂
    cases hq : w₂.model.parameter (.given p) with
    | error e => simp [add, hq]
    | ok q =>
      exact (settled_add h₂ hq (fun _ => h₂.contains_of_point hg (ho.pointVariable.2 hv)
        (ho.indexed.2 hindexed) hpair hq) _ _).mono
        (fun _ w₃ h₃ => (ends_pure _).2 ⟨rfl, h₃⟩) fun _ _ => trivial
  · rintro _ w₁ h₁
    rw [ends_bind]
    refine (settled_forIn h₁ fun ref _ w₂ h₂ => ?_).mono (fun _ w₂ h₂ => (ends_pure _).2 h₂)
      fun _ _ => trivial
    rw [ends_bind, ends_check]
    refine ⟨fun μ hμ => ?_, fun _ _ => trivial⟩
    rw [ends_bind]
    refine (settled_forIn h₂ ?_).mono (fun _ w₃ h₃ => (ends_pure _).2 ⟨rfl, h₃⟩) fun _ _ => trivial
    rintro ⟨p, row⟩ hpair w₃ h₃
    rw [ends_bind]
    have hμ₃ := (h.sameObjects h₃).measure.2 hμ
    cases hq : w₃.model.parameter (.given p) with
    | error e => simp [add, hq]
    | ok q =>
      exact (settled_add h₃ hq (fun _ => h₃.contains_of_measure hg hμ₃ hpair hq) _ _).mono
        (fun _ w₄ h₄ => (ends_pure _).2 ⟨rfl, h₄⟩) fun _ _ => trivial

/-- Preparing a ready model leaves the grid alone. -/
theorem settled_prepareSupports (h : Settled full built w) (hp : built.Prepared full)
    (hg : built.OnGrid) (hs : built.Stocked) :
    Ends prepareSupports w (fun _ w' => Settled full built w') fun _ => True := by
  unfold prepareSupports
  rw [ends_bind, ends_model]
  dsimp only
  -- the parameters are listed once, at the start
  have live : ∀ {w₁ : Workspace α}, Settled full built w₁ → ∀ p ∈ w.model.liveRefs .parameter,
      ∃ q, w₁.model.parameter (.given p) = .ok q := by
    intro w₁ h₁ p hp
    rw [← (h.sameObjects h₁).liveRefs] at hp
    exact Model.mem_liveRefs_parameter.1 hp
  rw [ends_bind]
  refine (settled_forIn h fun p hp w₁ h₁ => ?_).mono ?_ fun _ _ => trivial
  · obtain ⟨q, hq⟩ := live h₁ p hp
    rw [ends_bind]
    exact (settled_fillIn h₁ hs hq).mono (fun _ w₂ h₂ => (ends_pure _).2 ⟨rfl, h₂⟩)
      fun _ _ => trivial
  rintro _ w₁ h₁
  rw [ends_bind]
  refine (settled_restoreSupports h₁ hg).mono ?_ fun _ _ => trivial
  rintro _ w₂ h₂
  rw [ends_bind]
  refine (settled_forIn h₂ fun p hmem w₃ h₃ => ?_).mono ?_ fun _ _ => trivial
  · obtain ⟨q, hq⟩ := live h₃ p hmem
    rw [ends_bind]
    exact (settled_addGenerative h₃ hp.derived hq).mono (fun _ w₄ h₄ => (ends_pure _).2 ⟨rfl, h₄⟩)
      fun _ _ => trivial
  rintro _ w₃ h₃
  unfold Evaluation.evaluateAll
  rw [ends_bind, ends_model, ends_bind]
  refine (settled_forIn h₃ fun d hd w₄ h₄ => ?_).mono (fun _ w₄ h₄ => (ends_pure _).2 h₄)
    fun _ _ => trivial
  rw [ends_bind]
  rw [← (h₃.sameObjects h₄).liveRefs] at hd
  exact (settled_evaluate h₄ hp hd).mono (fun _ w₅ h₅ => (ends_pure _).2 ⟨rfl, h₅⟩)
    fun _ _ => trivial

end Lawful

end Transcription

end Discretization
