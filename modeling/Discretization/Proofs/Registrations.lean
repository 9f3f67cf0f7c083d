import Discretization.Proofs.Additions
import Discretization.Proofs.Integrity

/-!
# How a Parameter Comes into a Model

Adding a parameter goes in two steps. The parameter is put into the model without supports, and then
it gets its first ones, which are given or generated. Only the digits and the domain are looked at
before the first step. Where the second step fails, because a value lies outside the domain or
nothing can be generated, the parameter stays in the model without supports.

## Main definitions

* `Parameter.Starts`: the first supports that a new parameter gets, after rounding;
* `Parameter.FilledWith`: a new parameter with exactly these supports;
* `Modeling.Supplied`, `Modeling.Unsupplied`: what the second step leaves if it succeeds or fails.

## Main results

* `Modeling.ends_addParameterWith`: how the two steps end, in all cases;
* `pushed_of_requested`: what an attempt to add a parameter leaves, in all cases;
* `not_unregistered_of_requested`: a failed attempt can leave a parameter behind.
-/

namespace Discretization

open Operation Workspace

variable {α : Type} [Scalar α]

/-! ## The object added last -/

/-- An object that was just added is changed as if it had been added that way. -/
theorem Table.modify_push_next {β : Type} {t : Table β} (ht : t.WellFormed) (b : β) (f : β → β) :
    (t.push b).modify t.next f = t.push (f b) := by
  have hother : ∀ row ∈ t.rows, ¬ row.1 = t.next := by
    intro row hrow he
    apply Table.next_not_mem ht
    rw [← he]
    exact List.mem_map_of_mem hrow
  have hsame : (t.rows.map fun row => if row.1 = t.next then (row.1, f row.2) else row) =
      t.rows := by
    conv_rhs => rw [← List.map_id t.rows]
    apply List.map_congr_left
    intro row hrow
    simp [hother row hrow]
  simp [push, modify, hsame]

namespace Model

variable {m : Model α}

/-- The reference that the next parameter gets. -/
def nextParameter (m : Model α) : Ref :=
  m.ref .parameter m.parameters.next

omit [Scalar α] in
theorem parameter_pushParameter (ht : m.parameters.WellFormed) (q : Parameter α) :
    (m.pushParameter q).2.parameter (.given m.nextParameter) = .ok q :=
  parameter_eq_ok.2 ⟨rfl, rfl, Table.get?_push_next ht q⟩

omit [Scalar α] in
theorem modifyParameter_pushParameter (ht : m.parameters.WellFormed) (q : Parameter α)
    (f : Parameter α → Parameter α) :
    (m.pushParameter q).2.modifyParameter m.nextParameter f = (m.pushParameter (f q)).2 := by
  have hmodify := Table.modify_push_next ht q f
  simp only [pushParameter, modifyParameter, markStale, nextParameter, ref] at hmodify ⊢
  rw [hmodify]

omit [Scalar α] in
/-- A model to which a parameter was just added is stale already. -/
theorem markStaleIfUsed_pushParameter (q : Parameter α) (p : Ref) :
    (m.pushParameter q).2.markStaleIfUsed p = (m.pushParameter q).2 := by
  unfold markStaleIfUsed
  split <;> rfl

end Model

/-! ## First supports -/

namespace SupportMap

variable {m : SupportMap α} {values : List α} {label : Label}

/-- Supports that come from additions under one label have this label alone and the added values. -/
theorem mem_supports_addAll (h : ∀ s ∈ m.supports, s.labels = [label]) {s : Support α}
    (hs : s ∈ (m.addAll values label).2.supports) :
    s.labels = [label] ∧ (s.value ∈ m.values ∨ s.value ∈ values) := by
  refine ⟨?_, mem_values_addAll (List.mem_map_of_mem hs)⟩
  -- over the values, with the map of what the earlier ones have left
  induction values generalizing m with
  | nil => exact h s hs
  | cons value rest ih =>
    rw [addAll_cons] at hs
    apply ih _ hs
    intro s₁ hs₁
    rcases mem_supports_add hs₁ with hs₁ | ⟨s₀, hs₀, rfl⟩ | rfl
    · exact h s₁ hs₁
    · simp [Label.insert, h s₀ hs₀]
    · simp

end SupportMap

namespace Parameter

/-- The first supports of a new parameter, after rounding, and their label: the given ones, or as
many generated ones as asked for. All lie within the domain. -/
inductive Starts (blank : Parameter α) (e : Environment α) :
    Option (List α) → Int → List α → Label → Prop where
  /-- The supports are given. -/
  | given {values rounded : List α} {count : Int}
      (rounds : roundList blank.digits values = .ok rounded)
      (inside : blank.checkBounds rounded = .ok ()) :
      blank.Starts e (some values) count rounded .userDefined
  /-- No supports are asked for. -/
  | nothing {count : Int} (unasked : count ≤ 0) : blank.Starts e none count [] .userDefined
  /-- The supports are generated by the default method of the domain. -/
  | generated {found : Tensor α} {rounded : List α} {label : Label} {count : Int}
      {e' : Environment α} (asked : 0 < count)
      (generates : Generation.generate blank.domain none (some count) (some blank.digits) none e =
        .ok (found, label) e')
      (storable : label.isSelector = false)
      (rounds : roundList blank.digits found.entries = .ok rounded)
      (inside : blank.checkBounds rounded = .ok ()) :
      blank.Starts e none count rounded label

/-- A new parameter that got some values under a label, each of them once and nothing else. -/
structure FilledWith (blank : Parameter α) (values : List α) (label : Label) (q : Parameter α) :
    Prop where
  rest : q = { blank with supports := q.supports, hasInternal := label.internal }
  increasing : Increasing q.supports.values
  stores : ∀ x ∈ values, q.supports.StoresLike x label
  only : ∀ s ∈ q.supports.supports, s.labels = [label] ∧ s.value ∈ values

variable [LawfulScalar α] {blank : Parameter α} {values : List α}

theorem filledWith_addAll (hinside : blank.checkBounds values = .ok ()) (label : Label) :
    blank.FilledWith values label { blank with
      supports := (SupportMap.empty.addAll values label).2, hasInternal := label.internal } where
  rest := rfl
  increasing := SupportMap.increasing_addAll (m := .empty) .nil
    (Store.defined_of_checkBounds hinside) label
  stores x hx := SupportMap.exists_stores_addAll SupportMap.empty label hx
  only s hs := by
    obtain ⟨hlabels, hvalue⟩ := SupportMap.mem_supports_addAll (by simp [SupportMap.empty]) hs
    exact ⟨hlabels, by simpa [SupportMap.empty, SupportMap.values] using hvalue⟩

omit [LawfulScalar α] in
theorem New.filledWith_nil (h : blank.New) : blank.FilledWith [] .userDefined blank where
  rest := by simp [← h.hasInternal, Label.userDefined]
  increasing := by
    rw [h.supports]
    exact .nil
  stores x hx := by simp at hx
  only s hs := by simp [h.supports, SupportMap.empty] at hs

end Parameter

namespace Modeling

variable {m : Model α} {blank : Parameter α} {w : Workspace α} {supports : Option (List α)}
  {count : Int}

/-- The parameter that is put into a model before it gets its first supports. -/
def blankParameter (m : Model α) (domain : Domain α) (name : String) (digits : Int)
    (method : DerivativeMethod) : Parameter α :=
  { name := nameOr name s!"param{m.parameters.next}", domain, digits, method
    info := method.generativeInfo }

/-- The new parameter is the last one of the model and has its first supports. -/
def Supplied (m : Model α) (blank : Parameter α) (e : Environment α) (supports : Option (List α))
    (count : Int) (m' : Model α) : Prop :=
  ∃ values label q, blank.Starts e supports count values label ∧ blank.FilledWith values label q ∧
    m' = (m.pushParameter q).2

/-- The new parameter is the last one of the model. There are no first supports for it, and it has
none. -/
def Unsupplied (m : Model α) (blank : Parameter α) (e : Environment α) (supports : Option (List α))
    (count : Int) (m' : Model α) : Prop :=
  (∀ values label, ¬ blank.Starts e supports count values label) ∧ m' = (m.pushParameter blank).2

section Supply

variable [LawfulScalar α] (ht : m.parameters.WellFormed) (hnew : blank.New)
  (hw : w.model = (m.pushParameter blank).2)

include ht hnew hw

/-- Given supports are placed on a new parameter as a whole or not at all. -/
theorem ends_set_supplied (count : Int) (values : List α) :
    Ends (Store.set m.nextParameter values (.given .userDefined) false) w
      (fun _ w' => Supplied m blank w.environment (some values) count w'.model)
      fun w' => Unsupplied m blank w.environment (some values) count w'.model := by
  have hq : w.model.parameter (.given m.nextParameter) = .ok blank := by
    rw [hw]
    exact Model.parameter_pushParameter ht blank
  refine Store.ends_set_with (fun hfails => ⟨?_, hw⟩)
    fun q l rounded hq₁ hl _ _ hr hinside w₂ hcleared => ?_
  · rintro _ _ ⟨hr, hinside⟩
    apply hfails blank .userDefined _ hq rfl (by decide) _ hr hinside
    simp [hnew.supports, SupportMap.empty]
  · obtain rfl : blank = q := Except.ok.inj (hq.symm.trans hq₁)
    obtain rfl : Label.userDefined = l := Argument.given.inj hl
    refine ⟨rounded, _, _, .given hr hinside, Parameter.filledWith_addAll hinside _, ?_⟩
    -- a new parameter has no equations to be dropped
    have hmodel := hcleared.kept hnew.hasEquations
    simp only [hmodel, hw, Model.modifyParameter_pushParameter ht,
      Model.markStaleIfUsed_pushParameter, hnew.hasGenerative]

omit hw in
/-- Checked values are added to a new parameter as a whole or not at all. -/
theorem ends_add_filled (hw : w.model = (m.pushParameter blank).2) (values : List α)
    (label : Label) :
    Ends (Store.add m.nextParameter values (.given label) true) w
      (fun _ w' => label.isSelector = false ∧ ∃ rounded q,
        roundList blank.digits values = .ok rounded ∧
        blank.checkBounds rounded = .ok () ∧ blank.FilledWith rounded label q ∧
        w'.model = (m.pushParameter q).2)
      fun w' => (label.isSelector = false → ∀ rounded, roundList blank.digits values = .ok rounded →
        blank.checkBounds rounded ≠ .ok ()) ∧ w'.model = (m.pushParameter blank).2 := by
  have hq : w.model.parameter (.given m.nextParameter) = .ok blank := by
    rw [hw]
    exact Model.parameter_pushParameter ht blank
  refine Store.ends_add_by (fun hfails => ⟨fun hstorable rounded hr hinside => ?_, hw⟩)
    fun q l rounded hq₁ hl hstorable hr hinside => ?_
  · exact hfails blank label rounded hq rfl hstorable hr fun _ => hinside
  obtain rfl : blank = q := Except.ok.inj (hq.symm.trans hq₁)
  obtain rfl : label = l := Argument.given.inj hl
  have hfilled := Parameter.filledWith_addAll (hinside rfl) label
  have hadded : ∀ w₁ : Workspace α,
      w₁.model = w.model.modifyParameter m.nextParameter (fun q₁ => { q₁ with
        supports := (blank.supports.addAll rounded label).2
        hasInternal := q₁.hasInternal || label.internal }) →
      w₁.model = (m.pushParameter { blank with
        supports := (SupportMap.empty.addAll rounded label).2
        hasInternal := label.internal }).2 := by
    intro w₁ hw₁
    simp only [hw₁, hw, Model.modifyParameter_pushParameter ht, hnew.supports, hnew.hasInternal,
      Bool.false_or]
  refine ⟨fun _ => ⟨hstorable, rounded, _, hr, hinside rfl, hfilled, hadded _ rfl⟩,
    fun _ w₂ hcleared => ?_⟩
  -- a new parameter has neither equations to be dropped nor derived supports to be taken away
  apply Store.ends_resetGenerative_of_missing hcleared.parameter hnew.hasGenerative
  refine ⟨hstorable, rounded, _, hr, hinside rfl, hfilled, ?_⟩
  simp only [hadded w₂ (hcleared.kept hnew.hasEquations), Model.markStaleIfUsed_pushParameter]

/-- Generated supports are added to a new parameter as a whole or not at all. -/
theorem ends_fillIn_supplied :
    Ends (Store.fillIn m.nextParameter (some count) true none) w
      (fun _ w' => Supplied m blank w.environment none count w'.model)
      fun w' => Unsupplied m blank w.environment none count w'.model := by
  have hq : w.model.parameter (.given m.nextParameter) = .ok blank := by
    rw [hw]
    exact Model.parameter_pushParameter ht blank
  -- the new parameter has no supports, so it gets as many as asked for
  have hempty : (blank.supports.size : Int) = 0 := by
    simp [hnew.supports, SupportMap.empty, SupportMap.size]
  unfold Store.fillIn
  simp only [pure_bind, Bool.true_or, Bool.true_and, decide_eq_true_eq]
  rw [ends_bind, ends_query_of hq, hempty, ends_ite]
  refine ⟨fun hasked => ?_, fun hunasked => ?_⟩
  · unfold Store.generateAndAdd
    rw [ends_bind, ends_bind, ends_query_of hq, ends_bind, ends_onEnvironment]
    simp only [Bool.and_false, Bool.false_and, Bool.false_eq_true, if_false, lt_self_iff_false,
      decide_false, Int.sub_zero]
    refine .of_run ?_ ?_
    · rintro ⟨found, label⟩ e' hgenerates
      refine (ends_add_filled ht hnew (w := { w with environment := e' }) hw found.entries
        label).mono ?_ ?_
      · rintro _ w' ⟨hstorable, rounded, q, hr, hinside, hfilled, hw'⟩
        exact (ends_pure _).2
          ⟨rounded, label, q, .generated hasked hgenerates hstorable hr hinside, hfilled, hw'⟩
      · rintro w' ⟨hfails, hw'⟩
        refine ⟨fun rounded label' hstarts => ?_, hw'⟩
        cases hstarts with
        | nothing hunasked => omega
        | generated _ hgenerates' hstorable hr hinside =>
          rw [hgenerates] at hgenerates'
          obtain ⟨rfl, rfl⟩ := Prod.mk.inj (EStateM.Result.ok.inj hgenerates').1
          -- what is generated is determined, so it cannot both start a parameter and be refused
          exact hfails hstorable _ hr hinside
    · intro error e' hfails
      refine ⟨fun rounded label hstarts => ?_, hw⟩
      cases hstarts with
      | nothing hunasked => omega
      | generated _ hgenerates => simp [hfails] at hgenerates
  · exact (ends_pure _).2 ⟨[], .userDefined, blank, .nothing (by simpa using hunasked),
      hnew.filledWith_nil, hw⟩

end Supply

/-- Only the digits and the domain are looked at before the parameter is put into the model. -/
theorem ends_addParameterWith [LawfulScalar α] (ht : w.model.parameters.WellFormed)
    (domain : Domain α) (name : String) (supports : Option (List α)) (count : Int)
    (method : DerivativeMethod) (digits : Int) :
    let accepted := 1 ≤ digits ∧ ∃ bounds, domain.bounds = .ok bounds
    let blank := blankParameter w.model domain name digits method
    Ends (addParameterWith domain name supports count method digits) w
      (fun p w' => accepted ∧ p = w.model.nextParameter ∧
        Supplied w.model blank w.environment supports count w'.model)
      fun w' => ¬ accepted ∧ w'.model = w.model ∨
        accepted ∧ Unsupplied w.model blank w.environment supports count w'.model := by
  intro accepted blank
  unfold addParameterWith
  dsimp only
  rw [ends_ite]
  refine ⟨fun hfew => ?_, fun henough => ?_⟩
  · rw [ends_bind, ends_throw]
    exact .inl ⟨fun h => by omega, rfl⟩
  cases hbounds : domain.bounds with
  | error e =>
    rw [ends_bind, ends_throw]
    exact .inl ⟨fun ⟨_, bounds, h⟩ => by simp [hbounds] at h, rfl⟩
  | ok bounds =>
    have haccepted : accepted := ⟨by omega, bounds, hbounds⟩
    have hnew : blank.New := ⟨haccepted.1, rfl, rfl, rfl, rfl, rfl⟩
    rw [ends_bind, ends_model, ends_bind, ends_change]
    refine ⟨fun p m hpush => ?_, nofun⟩
    -- pushing a parameter cannot fail
    obtain ⟨rfl, rfl⟩ := Prod.mk.inj (Except.ok.inj hpush)
    cases supports with
    | some values =>
      dsimp only
      rw [ends_bind]
      exact (ends_set_supplied ht hnew rfl count values).mono
        (fun _ _ h => (ends_pure _).2 ⟨haccepted, rfl, h⟩) fun _ h => .inr ⟨haccepted, h⟩
    | none =>
      dsimp only
      rw [ends_ite, ends_bind]
      refine ⟨fun _ => ?_, fun hzero => ?_⟩
      · exact (ends_fillIn_supplied ht hnew rfl).mono
          (fun _ _ h => (ends_pure _).2 ⟨haccepted, rfl, h⟩) fun _ h => .inr ⟨haccepted, h⟩
      · exact (ends_pure _).2 ⟨haccepted, rfl, [], .userDefined, blank, .nothing (by omega),
          hnew.filledWith_nil, rfl⟩

end Modeling

/-- What an attempt to add a parameter leaves. If it succeeds, the new parameter holds exactly the
rounded values that were given or generated, or none if none were asked for, and the rest of the
model is as before, apart from the index given out and the readiness. If it fails because of the
digits or the domain, the model is as before. If it fails because the first supports cannot be
placed, the parameter is in the model, without supports. -/
theorem pushed_of_requested [LawfulScalar α] {m : Model α} (h : Requested m) (e : Environment α)
    (domain : Domain α) (name : String) (supports : Option (List α)) (count : Int)
    (digits : Option Int) (method : DerivativeMethod) :
    ∃ d e₁, digits.elim Environment.defaultDigits pure e = .ok d e₁ ∧
      let accepted := 1 ≤ d ∧ ∃ bounds, domain.bounds = .ok bounds
      let blank := Modeling.blankParameter m domain name d method
      let run := Modeling.addParameter domain name supports count digits method ⟨e, m⟩
      (∃ w' values label q, run = .ok m.nextParameter w' ∧ accepted ∧
        blank.Starts e₁ supports count values label ∧ blank.FilledWith values label q ∧
        w'.model = (m.pushParameter q).2) ∨
      ∃ error w', run = .error error w' ∧
        (¬ accepted ∧ w'.model = m ∨
          accepted ∧ (∀ values label, ¬ blank.Starts e₁ supports count values label) ∧
            w'.model = (m.pushParameter blank).2) := by
  -- the number of digits is given or comes from the settings, which cannot fail
  obtain ⟨d, e₁, hdigits, hrun⟩ : ∃ d e₁, digits.elim Environment.defaultDigits pure e = .ok d e₁ ∧
      Modeling.addParameter domain name supports count digits method ⟨e, m⟩ =
        Modeling.addParameterWith domain name supports count method d ⟨e₁, m⟩ := by
    rw [Modeling.addParameter_eq]
    cases digits with
    | some d => exact ⟨d, e, rfl, rfl⟩
    | none =>
      cases hdefault : Environment.defaultDigits e with
      | ok d e₁ =>
        have hdigits : onEnvironment Environment.defaultDigits ⟨e, m⟩ = .ok d ⟨e₁, m⟩ := by
          simp [onEnvironment, hdefault]
        refine ⟨d, e₁, hdefault, ?_⟩
        simp only [Option.elim, bind, EStateM.bind, hdigits]
      | error error e₁ => cases hdefault
  refine ⟨d, e₁, hdigits, ?_⟩
  dsimp only
  have hends := Modeling.ends_addParameterWith (w := ⟨e₁, m⟩) h.intact.parameters domain name
    supports count method d
  rw [hrun]
  cases hresult : Modeling.addParameterWith domain name supports count method d ⟨e₁, m⟩ with
  | ok p w' =>
    obtain ⟨haccepted, rfl, values, label, q, hstarts, hfilled, hw'⟩ := hends.of_ok hresult
    exact .inl ⟨w', values, label, q, rfl, haccepted, hstarts, hfilled, hw'⟩
  | error error w' => exact .inr ⟨error, w', rfl, hends.of_error hresult⟩

/-- The second of the given values is outside the domain, so the parameter is left without any. -/
theorem pushed_of_requested_outside :
    let domain : Domain ℚ := .scalar (.interval 0 1)
    let m : Model ℚ := Request.replay { id := 0 }
      [.addParameter domain "s" (some [0, 1]) 0 (some 6) (.finiteDifference .backward)]
    let method : DerivativeMethod := .finiteDifference .central
    Requested m ∧ ∃ error w',
      Modeling.addParameter domain "t" (some [1 / 2, 2]) 0 (some 6) method ⟨{}, m⟩ =
        .error error w' ∧
      w'.model = (m.pushParameter (Modeling.blankParameter m domain "t" 6 method)).2 := by
  intro domain m method
  have hr : Requested m := .replay (.start 0 "model") _
  have hfails : Ends (Modeling.addParameter domain "t" (some [1 / 2, 2]) 0 (some 6) method) ⟨{}, m⟩
      (fun _ _ => False) fun _ => True := by decide +kernel
  obtain ⟨d, e₁, hdigits, hleft⟩ :=
    pushed_of_requested hr {} domain "t" (some [1 / 2, 2]) 0 (some 6) method
  obtain ⟨rfl, rfl⟩ : 6 = d ∧ {} = e₁ := by
    cases hdigits
    exact ⟨rfl, rfl⟩
  rcases hleft with ⟨w', -, -, -, hok, -⟩ | ⟨error, w', hrun, ⟨hrefused, -⟩ | ⟨-, -, hw'⟩⟩
  · exact (hfails.of_ok hok).elim
  · exact absurd ⟨by decide, (0, 1), rfl⟩ hrefused
  · exact ⟨hr, error, w', hrun, hw'⟩

/-- A parameter whose only given support is outside its domain stays in a model that was ready, and
the model is no longer ready. -/
theorem not_unregistered_of_requested :
    ¬ ∀ (m : Model Float) (e : Environment Float) (domain : Domain Float) (name : String)
      (supports : Option (List Float)) (count : Int) (digits : Option Int)
      (method : DerivativeMethod) (error : Error Float) (w' : Workspace Float), Requested m →
        Modeling.addParameter domain name supports count digits method ⟨e, m⟩ = .error error w' →
          w'.model.parameters.indices = m.parameters.indices ∧
            w'.model.parameters.next = m.parameters.next ∧ w'.model.ready = m.ready := by
  intro hall
  let domain : Domain Float := .scalar (.interval 0 1)
  let method : DerivativeMethod := .finiteDifference .backward
  let m : Model Float := Request.replay { id := 0 }
    [.addParameter domain "s" (some [0, 1]) 0 (some 12) method, .build false]
  have hr : Requested m := .replay (.start 0 "model") _
  have hruns : Ends (Modeling.addParameter domain "t" (some [2]) 0 (some 12) method) ⟨{}, m⟩
      (fun _ _ => False)
      fun w' => (m.parameters.next, m.ready, w'.model.parameters.next, w'.model.ready) =
        (2, true, 3, false) := by decide +kernel
  cases hrun : Modeling.addParameter domain "t" (some [2]) 0 (some 12) method ⟨{}, m⟩ with
  | ok p w' => exact (hruns.of_ok hrun).elim
  | error error w' =>
    have hchanged := hruns.of_error hrun
    obtain ⟨-, -, hready⟩ := hall m {} domain "t" (some [2]) 0 (some 12) method error w' hr hrun
    simp only [Prod.mk.injEq] at hchanged
    simp [hchanged] at hready

end Discretization
