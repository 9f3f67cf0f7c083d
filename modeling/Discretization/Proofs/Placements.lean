import Discretization.Proofs.Histories
import Discretization.Proofs.Representations

/-!
# Everything Sits on the Support Grid

Before a transcription, missing supports are filled in, those of point variables and measures are
stored again, derived supports are put in place and derivatives are evaluated, in this order. A
value that is stored again can take derived supports and equations away, but the passes after it
only add supports, so in the end all four hold at once, however the supports were changed before.

## Main definitions

* `SupportMap.HasDerived`: derived supports are stored beside the ones they are derived from;
* `Model.Placed`: what holds of the supports after the preparation.

## Main results

* `reliable_of_requested`: derived supports that count as in place are in place;
* `placed_of_prepareSupports`: a preparation that completes leaves everything on the grid.
-/

namespace Discretization

variable {α : Type} [Scalar α] {q q' : Parameter α}

/-! ## Derived supports in place -/

/-- Derived supports are in place: the points derived from some of the supports to derive from are
stored under their label, rounded and as far as they are defined. -/
def SupportMap.HasDerived (m : SupportMap α) (digits : Int) (basis : List α) (label : Label) :
    Prop :=
  ∃ base rounded, base.Sublist (m.baseValues label) ∧ 1 < base.length ∧
    roundList digits (GenerativeInfo.points basis base) = .ok rounded ∧
    ∀ x ∈ rounded, Scalar.Defined x → m.Marks x label

/-- Where derived supports count as in place, they are. -/
def Parameter.Truthful (q : Parameter α) : Prop :=
  q.hasGenerative = true → ∀ basis label, q.info = .uniform basis label →
    q.supports.HasDerived q.digits basis label

namespace SupportMap

variable {m : SupportMap α} {label l : Label}

omit [Scalar α] in
/-- A support that others are derived from stays one with another label. -/
theorem insert_ne_singleton {labels : List Label} (hne : labels ≠ []) (h : labels ≠ [label]) :
    l.insert labels ≠ [label] := by
  unfold Label.insert
  split
  · exact h
  · obtain ⟨first, rest, rfl⟩ := List.exists_cons_of_ne_nil hne
    simp

omit [Scalar α] in
/-- Supports to derive from stay so where supports are changed one by one without a loss. -/
theorem baseValues_map_sublist {supports : List (Support α)} {f : Support α → Support α}
    (hvalue : ∀ s, (f s).value = s.value)
    (hbase : ∀ s ∈ supports, s.labels ≠ [label] → (f s).labels ≠ [label]) :
    (baseValues ⟨supports⟩ label).Sublist (baseValues ⟨supports.map f⟩ label) := by
  unfold baseValues
  induction supports with
  | nil => exact .refl _
  | cons s rest ih =>
    have ih := ih fun s hs => hbase s (List.mem_cons_of_mem _ hs)
    rw [List.map_cons, List.filter_cons, List.filter_cons]
    by_cases hs : s.labels = [label]
    · -- a support of that label alone does not count before, but may afterwards
      rw [if_neg (by simp [hs])]
      split
      · exact ih.cons _
      · exact ih
    · rw [if_pos (by simpa using hs), if_pos (by simpa using hbase s List.mem_cons_self hs)]
      rw [List.map_cons, List.map_cons, hvalue]
      exact ih.cons_cons _

/-- Supports to derive from stay so when a value is added. -/
theorem baseValues_sublist_add (h : ∀ s ∈ m.supports, s.Labelled) (value : α) :
    (m.baseValues label).Sublist ((m.add value l).2.baseValues label) := by
  cases hc : m.contains value with
  | true =>
    rw [add, if_pos hc]
    refine baseValues_map_sublist (fun s => ?_) fun s hs hbase => ?_
    · split <;> rfl
    · split
      · exact insert_ne_singleton (h s hs).nonempty hbase
      · exact hbase
  | false =>
    rw [add_of_not_contains l hc]
    exact ((List.sublist_insertIdx _ _ _).filter _).map _

theorem baseValues_sublist_addAll (h : ∀ s ∈ m.supports, s.Labelled) (hl : l.isSelector = false)
    (values : List α) : (m.baseValues label).Sublist ((m.addAll values l).2.baseValues label) := by
  induction values generalizing m with
  | nil => exact .refl _
  | cons value rest ih =>
    rw [addAll_cons]
    refine (baseValues_sublist_add h value).trans (ih ?_)
    exact labelled_addAll h hl [value]

/-- Derived supports stay in place when values are added. -/
theorem HasDerived.addAll {digits : Int} {basis values : List α}
    (h : m.HasDerived digits basis label)
    (hm : ∀ s ∈ m.supports, s.Labelled) (hl : l.isSelector = false) :
    (m.addAll values l).2.HasDerived digits basis label := by
  -- the supports that values were derived from are still among those to derive from
  obtain ⟨base, rounded, hbase, hseveral, hrounds, hmarks⟩ := h
  exact ⟨base, rounded, hbase.trans (baseValues_sublist_addAll hm hl values), hseveral, hrounds,
    fun x hx hd => (hmarks x hx hd).addAll values l⟩

/-- Adding the points derived from all supports to derive from puts derived supports in place. -/
theorem hasDerived_addAll {digits : Int} {basis rounded : List α}
    (hm : ∀ s ∈ m.supports, s.Labelled) (hl : label.isSelector = false)
    (hseveral : 1 < (m.baseValues label).length)
    (hrounds : roundList digits (GenerativeInfo.points basis (m.baseValues label)) = .ok rounded) :
    (m.addAll rounded label).2.HasDerived digits basis label :=
  ⟨m.baseValues label, rounded, baseValues_sublist_addAll hm hl rounded, hseveral, hrounds,
    fun _ hx hd => marks_addAll m label hx hd⟩

end SupportMap

section Lawful

variable [LawfulScalar α] {m : Model α} {p : Ref} {full : Prop}

/-- What steps keep of a parameter: tidy supports, and derived ones in place where they count as
such. -/
structure Parameter.Reliable (q : Parameter α) : Prop extends q.Tidy where
  truthful : q.Truthful

namespace Parameter.Reliable

omit [LawfulScalar α] in
theorem of_new (h : q.New) : q.Reliable :=
  ⟨.of_new h, fun hflag => by rw [h.hasGenerative] at hflag; cases hflag⟩

theorem step (h : q.Reliable) (hs : q.Step q') : q'.Reliable := by
  -- only adding values can leave derived supports in place; all else takes the flag away or finds
  -- it missing
  refine ⟨h.toTidy.step hs, fun hflag basis label hinfo => ?_⟩
  have hm := h.labelled
  cases hs with
  | note internal equations => exact h.truthful hflag basis label hinfo
  | add _ hl => exact (h.truthful hflag basis label hinfo).addAll hm hl
  | strip selectors => cases hflag
  | clear => cases hflag
  | @derive basis' derived rounded label' owner _ hinfo' hderives hr hl =>
    obtain ⟨rfl, rfl⟩ : basis' = basis ∧ label' = label := by simpa [hinfo'] using hinfo
    rw [hinfo', GenerativeInfo.makeSupports] at hderives
    split at hderives
    · cases hderives
    · rename_i hseveral
      cases hderives
      exact SupportMap.hasDerived_addAll hm hl (by omega) hr
  | redefine method info hmissing =>
    rw [show q.hasGenerative = true from hflag] at hmissing
    cases hmissing

end Parameter.Reliable

/-- Derived supports that count as in place are in place. -/
theorem reliable_of_requested (h : Requested m) (hq : m.parameter (.given p) = .ok q) :
    q.Reliable :=
  h.parameter_induction (fun _ hnew => .of_new hnew) (fun _ _ hq hs => hq.step hs) p q hq

/-! ## Filling in -/

open Operation Workspace Store Transcription

variable {w w' : Workspace α}

/-- Generated supports are checked before they are added, so they are defined. -/
theorem defined_of_generateAndAdd (hs : w.model.Sound) (method : Option Label) (count : Option Int)
    (extra : Bool) (source : Option Nat) :
    Ends (generateAndAdd p method count extra source) w
      (fun _ w' => w.model.DefinedAt p → w'.model.DefinedAt p) fun _ => True := by
  unfold generateAndAdd
  rw [ends_bind, ends_query]
  refine ⟨fun q _ => ?_, fun _ _ => trivial⟩
  rw [ends_bind, ends_onEnvironment]
  refine .of_forall (fun values e => ?_) fun _ => trivial
  exact defined_of_checked_add (w := { w with environment := e }) hs values.1.entries
    (.given values.2)

theorem defined_of_fillIn (hs : w.model.Sound) :
    Ends (fillIn p none false none) w (fun _ w' => w.model.DefinedAt p → w'.model.DefinedAt p)
      fun _ => True := by
  unfold fillIn
  rw [ends_bind, ends_onEnvironment]
  refine .of_forall (fun count e => ?_) fun _ => trivial
  rw [ends_bind, ends_query]
  refine ⟨fun q _ => ?_, fun _ _ => trivial⟩
  dsimp only
  -- nothing is generated where there are supports
  rw [ends_ite]
  refine ⟨fun _ => ?_, fun _ => (ends_pure _).2 fun h => h⟩
  rw [ends_bind]
  exact (defined_of_generateAndAdd (w := { w with environment := e }) hs _ _ _ _).mono
    (fun _ _ h => (ends_pure _).2 h) fun _ h => h

/-- Filling in supports changes supports of parameters only, and leaves the grid defined. -/
theorem gridDefined_of_fillInAll (h : w.model.Inv full) {ps : List Ref}
    (hps : ∀ p ∈ ps, ∃ q, w.model.parameter (.given p) = .ok q) :
    Ends (forIn ps PUnit.unit fun p _ => do
        fillIn p none false none
        return .yield PUnit.unit) w
      (fun _ w' => w'.model.Inv full ∧ w.Keeps w' ∧ (w.model.GridDefined → w'.model.GridDefined))
      fun _ => True := by
  refine Ends.forIn (fun _ w' => w'.model.Inv full ∧ w.Keeps w' ∧
    (w.model.GridDefined → w'.model.GridDefined)) ⟨h, refl_of _ w, fun hdef => hdef⟩ ?_
  rintro gone p rest w₁ hgone ⟨h₁, hk₁, hdef₁⟩
  obtain ⟨q, hq⟩ := hps p (hgone ▸ by simp)
  obtain ⟨q₁, hq₁, -⟩ := hk₁.parameter p q hq
  rw [ends_bind]
  refine (((inv_of_moves (keepsInv_fillIn p none false none) h₁).and
    (defined_of_fillIn h₁.sound)).and ((touches_fillIn p none false none).ends w₁)).mono ?_
    fun _ _ => trivial
  rintro _ w₂ ⟨⟨h₂, hdef₂⟩, ht⟩
  exact (ends_pure _).2 ⟨rfl, h₂, trans_of Keeps hk₁ ht.keeps, fun hdef =>
    ht.model.toAlters.gridDefined_of hq₁ (hdef₁ hdef) hdef₂⟩

/-! ## After the preparation -/

/-- Everything sits on the support grid. -/
structure Model.Placed (m : Model α) : Prop where
  /-- Every value of a point variable is a stored support of its parameter. -/
  points : ∀ ref v, m.pointVariable ref = .ok v → ∃ name parameters,
    m.indexed v.ref = .ok (name, parameters) ∧ parameters.length = v.values.length ∧
      ∀ p x, (p, x) ∈ parameters.zip v.values → ∃ q, m.parameter (.given p) = .ok q ∧
        q.supports.contains x = true
  /-- Every support of a measure is stored under the label of the measure, once it is rounded. -/
  measures : ∀ ref μ, m.measure ref = .ok μ →
    μ.data.supports.length = μ.data.parameters.length ∧
      ∀ p row, (p, row) ∈ μ.data.parameters.zip μ.data.supports → ∃ q rounded,
        m.parameter (.given p) = .ok q ∧ roundList q.digits row = .ok rounded ∧
          ∀ x ∈ rounded, q.supports.Marks x μ.data.label
  /-- Derived supports are in place where they are asked for. -/
  derived : ∀ p q basis label, m.parameter (.given p) = .ok q → q.info = .uniform basis label →
    q.hasGenerative = true ∧ q.supports.HasDerived q.digits basis label
  /-- Every derivative has stored equations. -/
  evaluated : ∀ ref d, m.derivative ref = .ok d → ∃ equations,
    m.equations? ref.index = some equations

omit [LawfulScalar α] in
theorem Store.Holds.extend {m m' : Model α} {p : Ref} {values : List α} {label : Label}
    (h : Holds m p values label) (he : m.Extends m') : Holds m' p values label := by
  intro q' hq'
  obtain ⟨q, hq⟩ := he.objects.symm.parameter hq'
  obtain ⟨rounded, hr, hmarks⟩ := h q hq
  obtain ⟨q₁, hq₁, hd, -⟩ := he.parameter p q hq
  rw [hq'] at hq₁
  cases hq₁
  exact ⟨rounded, by rwa [hd], fun x hx => he.marks p q q' hq hq' x label (hmarks x hx)⟩

/-- The preparation stores what point variables and measures need, and then only adds supports. -/
theorem ends_prepareSupports_holds (h : w.model.Inv full) (hdef : w.model.GridDefined)
    (ha : w.model.LabelsApart) :
    Ends prepareSupports w (fun _ w' => w'.model.Inv full ∧ w'.model.Derived ∧
      (∀ d ∈ w'.model.liveRefs .derivative, ∃ equations,
        w'.model.equations? d.index = some equations) ∧
      ∃ m₀ : Model α, m₀.Sound ∧ m₀.Extends w'.model ∧
        (∀ ref ∈ m₀.liveRefs .pointVariable, HoldsPoint m₀ ref) ∧
        ∀ ref ∈ m₀.liveRefs .measure, HoldsMeasure m₀ ref) fun _ => True := by
  unfold prepareSupports
  rw [ends_bind, ends_model]
  dsimp only
  rw [ends_bind]
  -- supports that are generated are checked, so they are defined as well
  refine (gridDefined_of_fillInAll h fun _ => Model.mem_liveRefs_parameter.1).mono ?_
    fun _ _ => trivial
  rintro _ w₁ ⟨h₁, hk₁, hdef₁⟩
  refine (ends_restoreAndDerive h₁ fun p => ?_).mono ?_ fun _ _ => trivial
  · rw [← Model.mem_liveRefs_parameter, hk₁.objects.liveRefs]
  rintro _ w₃ ⟨h₃, -, hderived, hevaluated, w₂, hr₂, hs₂, hx₂, hholds⟩
  exact ⟨h₃, hderived, hevaluated, w₂.model, hs₂, hx₂,
    hholds (hr₂.defined.2 (hdef₁ hdef)) (hk₁.labelsApart.2 ha)⟩

/-- A preparation that completes leaves everything on the support grid, whatever happened to the
supports before. -/
theorem placed_of_prepareSupports (h : Requested m) (hdef : m.Defined) (ha : m.LabelsApart)
    {e : Environment α} (hrun : prepareSupports ⟨e, m⟩ = .ok () w') : w'.model.Placed := by
  obtain ⟨hinv, hderived, hevaluated, m₀, hs, hx, hpoints, hmeasures⟩ :=
    (ends_prepareSupports_holds (w := ⟨e, m⟩) h.inv hdef.gridDefined ha).of_ok hrun
  -- what was restored stays, because the passes after it only add supports
  have hgrid := (onGrid_of_holds hs hpoints hmeasures).extend hx
  refine ⟨fun ref v hv => ?_, fun ref μ hμ => ?_, fun p q basis label hq hinfo => ?_,
    fun ref d hd => hevaluated ref (Model.mem_liveRefs_derivative.2 ⟨d, hd⟩)⟩
  · obtain ⟨-, -, hfound⟩ := Model.pointVariable_eq_ok.1 hv
    obtain ⟨name, parameters, hindexed, hlength, -⟩ := hinv.sound.point _ v hfound
    refine ⟨name, parameters, hindexed, hlength.symm, fun p x hx => ?_⟩
    obtain ⟨q, hq⟩ := hinv.sound.live_of_indexed hindexed p (List.of_mem_zip hx).1
    exact ⟨q, hq, hgrid.points ref v hv name parameters hindexed p x hx q hq⟩
  · obtain ⟨-, -, hfound⟩ := Model.measure_eq_ok.1 hμ
    obtain ⟨-, hshape, hlive⟩ := hinv.sound.measure _ μ hfound
    refine ⟨hshape.rows, fun p row hrow => ?_⟩
    have hμ₀ := hx.objects.measure.1 hμ
    have hholds :=
      (hmeasures ref (Model.mem_liveRefs_measure.2 ⟨μ, hμ₀⟩) μ hμ₀ (p, row) hrow).extend hx
    obtain ⟨⟨q, hq⟩, -⟩ := hlive p (List.of_mem_zip hrow).1
    obtain ⟨rounded, hr, hmarks⟩ := hholds q hq
    exact ⟨q, rounded, hq, hr, hmarks⟩
  · have hflag : q.hasGenerative = true := (hderived p q hq).resolve_right (by rw [hinfo]; nofun)
    -- the flag alone says little: the steps of the parameter tell what it stands for
    have hdevelops := (governs_develops.prepareSupports.ends ⟨e, m⟩).of_ok hrun
    exact ⟨hflag, (hdevelops.keeps (fun _ hnew => .of_new hnew) (fun _ _ h hs => h.step hs)
      (fun _ _ hq => reliable_of_requested h hq) p q hq).truthful hflag basis label hinfo⟩

end Lawful

/-- Whether no supports are derived under the label of user supports or of a measure. -/
def Model.separatesLabels (m : Model α) : Bool :=
  m.parameters.objects.all fun q =>
    match q.info with
    | .uniform _ label =>
      label != .userDefined && m.measures.objects.all (·.data.label != label)
    | _ => true

omit [Scalar α] in
/-- Where supports are derived under labels of their own, labels are apart. -/
theorem Model.labelsApart_of_separates {m : Model α} (h : m.separatesLabels = true) :
    m.LabelsApart := by
  rw [separatesLabels, List.all_eq_true] at h
  refine ⟨fun ref v hv name parameters hindexed p hp q hq basis derived hinfo => ?_,
    fun ref μ hμ p hp q hq basis derived hinfo => ?_⟩
  all_goals
    have hapart := h q (Table.mem_objects_of_get? (parameter_eq_ok.1 hq).2.2)
    rw [hinfo, Bool.and_eq_true] at hapart
  · simpa using hapart.1
  · have hμ := List.all_eq_true.1 hapart.2 μ (Table.mem_objects_of_get? (measure_eq_ok.1 hμ).2.2)
    exact Ne.symm (by simpa using hμ)

/-- Collocation over an interval whose supports were overwritten by force after a point variable and
a measure had stored theirs. -/
theorem placed_of_prepareSupports_overwritten :
    let p : Ref := ⟨0, .parameter, 1⟩
    let x : Ref := ⟨0, .infiniteVariable, 1⟩
    let data : MeasureData ℚ := ⟨[p], [1 / 2, 1 / 2], [[1 / 4, 1]], [], .uniformGrid, .unit, "mean"⟩
    let m : Model ℚ := Request.replay { id := 0 }
      [.addParameter (.scalar (.interval 0 1)) "t" (some [0, 1]) 0 (some 6)
        (.orthogonalCollocation 3),
      .addInfiniteVariable "x" [.given p] none none .none false,
      .addDerivative (.given x) p "dx" (.ok "t"),
      .addMeasure (.given x) data ⟨rfl, by decide⟩ "mean",
      .addPointVariable (.given x) [1 / 2] "half",
      .evaluateAll,
      .setSupports p [0, 1 / 8] (.given .userDefined) true]
    Requested m ∧ m.Defined ∧ m.LabelsApart ∧
      ∃ w', Transcription.prepareSupports ⟨{}, m⟩ = .ok () w' ∧ w'.model.Placed := by
  intro p x data m
  have hr : Requested m := .replay (.start 0 "model") _
  have hdef : m.Defined := .of_exact m
  have ha : m.LabelsApart := Model.labelsApart_of_separates (by decide +kernel)
  have hrun : (match Transcription.prepareSupports ⟨{}, m⟩ with
    | .ok _ w' => decide ((w'.model.equations? 1).isSome = true)
    | .error _ _ => false) = true := by decide +kernel
  split at hrun
  · rename_i w' h
    exact ⟨hr, hdef, ha, w', h, placed_of_prepareSupports hr hdef ha h⟩
  · cases hrun

end Discretization
