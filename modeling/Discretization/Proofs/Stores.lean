import Discretization.Proofs.Invariant

/-!
# Changes of Supports Keep the Invariant

Each operation on the supports of a parameter touches that parameter only. What is left of the
invariant is about the parameter: new and removed values drop the stored equations and the derived
supports, and the model becomes stale if something depends on the parameter. An operation can fail
halfway only where a support is undefined or nothing depends on the parameter.
-/

namespace Discretization.Store

open Operation Workspace

variable {α : Type} [Scalar α] {w w' : Workspace α} {p : Ref} {q : Parameter α} {full : Prop}

/-! ## Dropping equations -/

/-- The stored equations of the derivatives with respect to a parameter were dropped, if there were
any. -/
structure Cleared (p : Ref) (q : Parameter α) (w w' : Workspace α) : Prop where
  touches : w.Touches p w'
  parameter : w'.model.parameter (.given p) = .ok { q with hasEquations := false }
  dropped : q.hasEquations = true → w'.model.Unevaluated p
  kept : q.hasEquations = false → w'.model = w.model

omit [Scalar α] in
theorem Cleared.unevaluated (h : Cleared p q w w')
    (hflag : q.hasEquations = false → w.model.Unevaluated p) : w'.model.Unevaluated p := by
  cases hq : q.hasEquations with
  | true => exact h.dropped hq
  | false => rw [h.kept hq]; exact hflag hq

omit [Scalar α] in
theorem cleared_of_no_equations (hq : w.model.parameter (.given p) = .ok q)
    (hflag : q.hasEquations = false) : Cleared p q w w where
  touches := refl_of _ w
  parameter := by rw [hq, ← hflag]
  dropped h := by rw [hflag] at h; cases h
  kept _ := rfl

omit [Scalar α] in
theorem cleared_dropEquationsOf (hq : w.model.parameter (.given p) = .ok q)
    (hflag : q.hasEquations = true) (warning : Warning) :
    Cleared p q w { w.withWarning warning with model := w.model.dropEquationsOf p } where
  touches := ⟨Model.touches_dropEquationsOf w.model p, rfl, rfl⟩
  parameter := Model.parameter_dropEquationsOf hq
  dropped _ := Model.unevaluated_dropEquationsOf w.model p
  kept h := by rw [hflag] at h; cases h

omit [Scalar α] in
theorem moves_resetEquations (p : Ref) :
    Moves (Touches p) (resetEquations p : Operation α Unit) := by
  refine (moves_query _).bind fun parameter => ?_
  split
  · exact (moves_warn p _).bind fun _ => moves_modifyModel fun m =>
      (Model.touches_dropEquationsOf m p).trans (Model.touches_markStale _ p)
  · exact .pure _

omit [Scalar α] in
/-- Resetting the equations cannot fail, and if there were any, the model is stale. -/
theorem ends_resetEquations (hq : w.model.parameter (.given p) = .ok q) :
    Ends (resetEquations p) w
      (fun _ w' => Cleared p q w w' ∧ (q.hasEquations = true → w'.model.ready = false))
      fun _ => False := by
  have htouch := (moves_resetEquations p).ends w
  simp only [resetEquations, ends_bind, ends_query, hq, reduceCtorEq, false_implies, implies_true,
    and_true, Except.ok.injEq, forall_eq'] at htouch ⊢
  -- the frame comes with both branches, so it is split beside the goal
  rw [ends_ite] at htouch ⊢
  refine ⟨fun hflag => ?_, fun hflag => ?_⟩
  · have htouch := htouch.1 hflag
    simp only [ends_bind, ends_warn, ends_modifyModel] at htouch ⊢
    refine ⟨⟨htouch, ?_, fun _ => ?_, fun h => ?_⟩, fun _ => rfl⟩
    · exact Model.parameter_dropEquationsOf hq
    · exact Model.unevaluated_dropEquationsOf w.model p
    · rw [hflag] at h
      cases h
  · rw [Bool.not_eq_true] at hflag
    refine (ends_pure _).2 ⟨cleared_of_no_equations hq hflag, fun h => ?_⟩
    rw [hflag] at h
    cases h

/-! ## Deleting a label -/

/-- The labels that deleting a label strips: it and that of derived supports in place. -/
def selectors (q : Parameter α) (label derived : Label) : List Label :=
  if q.hasGenerative && derived != label then [label, derived] else [label]

/-- How deleting a label ends. The equations are dropped first; then the label of derived supports
must be known, and the labels are stripped, which ends early at an undefined value. -/
theorem ends_delete {ok : Unit → Workspace α → Prop} {fail : Workspace α → Prop} {label : Label}
    (hl : label ≠ .all) (hnone : ∀ e, w.model.parameter (.given p) = .error e → fail w)
    (h : ∀ q w₁, w.model.parameter (.given p) = .ok q → Cleared p q w w₁ →
      (∀ e, q.info.label = .error e → fail w₁) ∧
      ∀ derived, q.info.label = .ok derived → ∀ supports failed,
        q.supports.strip (selectors q label derived) = (supports, failed) →
        let m := w₁.model.modifyParameter p fun q => { q with supports, hasGenerative := false }
        (failed.isSome = true → fail { w₁ with model := m }) ∧
        (failed = none → ok () { w₁ with model := (m.modifyParameter p fun q =>
          { q with hasInternal := q.hasInternal && supports.hasInternal }).markStaleIfUsed p })) :
    Ends (delete p label) w ok fail := by
  unfold delete
  simp only [ends_bind, ends_query, ends_model, ends_ite, hl, if_false]
  refine ⟨fun q hq => ?_, hnone⟩
  refine ⟨fun hflag => ?_, fun hflag => ?_⟩
  -- with and without stored equations the labels are stripped in the same way
  on_goal 1 =>
    simp only [ends_warn, ends_modifyModel]
    obtain ⟨hfail, hok⟩ := h q _ hq (cleared_dropEquationsOf hq hflag .equationsDeleted)
  on_goal 2 =>
    obtain ⟨hfail, hok⟩ := h q w hq (cleared_of_no_equations hq (by simpa using hflag))
  all_goals
    rw [ends_check]
    refine ⟨fun derived hd => ?_, hfail⟩
    obtain ⟨supports, failed, hstrip⟩ : ∃ supports failed,
        q.supports.strip (selectors q label derived) = (supports, failed) := ⟨_, _, rfl⟩
    obtain ⟨hearly, hdone⟩ := hok derived hd supports failed hstrip
    rw [selectors] at hstrip
    simp only [hstrip, ends_modifyModel]
    cases failed with
    | some value => exact (ends_bind _ _).2 ((ends_throw _).2 (hearly rfl))
    | none =>
      simp only [ends_bind, ends_modifyModel]
      exact hdone rfl

/-- How deleting all supports ends: a refusal changes nothing, and then there is no failure. -/
theorem ends_delete_all {ok : Unit → Workspace α → Prop} {fail : Workspace α → Prop}
    (hfail : fail w)
    (h : ∀ q w₁, w.model.parameter (.given p) = .ok q → Cleared p q w w₁ →
      ok () { w₁ with model := (w₁.model.modifyParameter p fun q =>
        { q with supports := .empty, hasGenerative := false,
                 hasInternal := false }).markStaleIfUsed p }) :
    Ends (delete p .all) w ok fail := by
  unfold delete
  simp only [ends_bind, ends_query, ends_model, ends_ite, ends_throw, ends_modifyModel, ends_warn,
    hfail, implies_true, true_and, and_true, if_true]
  intro q hq _ _
  refine ⟨fun hflag => ?_, fun hflag => ?_⟩
  · exact h q _ hq (cleared_dropEquationsOf hq hflag .equationsDeleted)
  · exact h q w hq (cleared_of_no_equations hq (by simpa using hflag))

theorem moves_delete (p : Ref) (label : Label) :
    Moves (Touches p) (delete p label : Operation α Unit) := by
  refine ⟨fun w => ?_⟩
  by_cases hl : label = .all
  · subst hl
    refine ends_delete_all (refl_of _ w) fun q w₁ _ hw₁ => ?_
    refine Touches.markStaleIfUsed (hw₁.touches.modifyParameter fun q => ?_) p
    exact ⟨rfl, rfl, rfl⟩
  · refine ends_delete hl (fun _ _ => refl_of _ w) fun q w₁ _ hw₁ =>
      ⟨fun _ _ => hw₁.touches, fun derived _ supports failed _ => ?_⟩
    have hstripped : w.Touches p { w₁ with model := w₁.model.modifyParameter p fun q =>
        { q with supports, hasGenerative := false } } :=
      hw₁.touches.modifyParameter fun q => ⟨rfl, rfl, rfl⟩
    refine ⟨fun _ => hstripped, fun _ => ?_⟩
    refine Touches.markStaleIfUsed (hstripped.modifyParameter fun q => ?_) p
    exact ⟨rfl, rfl, rfl⟩

/-! ## Adding, replacing and deriving supports -/

omit [Scalar α] in
theorem storable_eq_ok {label : Argument Label} {l : Label} :
    (Label.storable label : Except (Error α) Label) = .ok l ↔
      label = .given l ∧ l.isSelector = false := by
  cases label with
  | mistyped value => simp [Label.storable]
  | given l' =>
    rw [Label.storable]
    split
    · rename_i h
      simp only [Except.throw_ne_ok, Argument.given.injEq, false_iff, not_and]
      rintro rfl
      simp [h]
    · rename_i h
      rw [Except.pure_eq_ok, Argument.given.injEq]
      exact ⟨fun he => ⟨he, by simpa [← he] using h⟩, fun he => he.1⟩

/-- How adding values ends: values that are there gain the label, and new ones drop the stored
equations and after them the derived supports. It fails because of a check before it changes
anything, or as taking the derived supports away does. -/
theorem ends_add_by {ok : Bool → Workspace α → Prop} {fail : Workspace α → Prop} {values : List α}
    {label : Argument Label} {checked : Bool}
    (hfail : (∀ q l rounded, w.model.parameter (.given p) = .ok q → label = .given l →
      l.isSelector = false → roundList q.digits values = .ok rounded →
      ¬ (checked = true → q.checkBounds rounded = .ok ())) → fail w)
    (h : ∀ q l rounded, w.model.parameter (.given p) = .ok q → label = .given l →
      l.isSelector = false → roundList q.digits values = .ok rounded →
      (checked = true → q.checkBounds rounded = .ok ()) →
      let f (q₁ : Parameter α) : Parameter α :=
        { q₁ with
          supports := (q.supports.addAll rounded l).2, hasInternal := q₁.hasInternal || l.internal }
      let w₁ := { w with model := w.model.modifyParameter p f }
      ((q.supports.addAll rounded l).1 = false → ok false w₁) ∧
      ((q.supports.addAll rounded l).1 = true → ∀ w₂, Cleared p (f q) w₁ w₂ →
        Ends (resetGenerative p) w₂
          (fun _ w₃ => ok true { w₃ with model := w₃.model.markStaleIfUsed p }) fail)) :
    Ends (add p values label checked) w ok fail := by
  unfold add
  rw [ends_bind, ends_query]
  refine ⟨fun q hq => ?_, fun e he => hfail fun q _ _ hq => by rw [hq] at he; cases he⟩
  rw [ends_bind, ends_check]
  refine ⟨fun l hl => ?_, fun e he => hfail fun _ l _ _ hgiven hl => by
    rw [storable_eq_ok.2 ⟨hgiven, hl⟩] at he
    cases he⟩
  rw [ends_bind, ends_check]
  obtain ⟨hgiven, hselector⟩ := storable_eq_ok.1 hl
  refine ⟨fun rounded hr => ?_, fun e he => hfail fun q₁ _ _ hq₁ _ _ hr => by
    obtain rfl : q = q₁ := Except.ok.inj (hq.symm.trans hq₁)
    rw [Parameter.round, hr] at he
    cases he⟩
  dsimp only
  rw [ends_ite]
  refine ⟨fun hchecked => ?_, fun hunchecked => ?_⟩
  -- the two branches differ in whether the bounds were checked
  on_goal 1 =>
    rw [ends_bind, ends_check]
    refine ⟨fun _ hbounds => ?_, fun e he => hfail fun q₁ _ rounded₁ hq₁ _ _ hr₁ hbounds => by
      obtain rfl : q = q₁ := Except.ok.inj (hq.symm.trans hq₁)
      obtain rfl : rounded = rounded₁ := Except.ok.inj (hr.symm.trans hr₁)
      rw [hbounds hchecked] at he
      cases he⟩
    obtain ⟨hold, hnew⟩ := h q l rounded hq hgiven hselector hr fun _ => hbounds
  on_goal 2 =>
    obtain ⟨hold, hnew⟩ := h q l rounded hq hgiven hselector hr fun h => absurd h hunchecked
  all_goals
    rw [ends_bind, ends_modifyModel, ends_ite]
    refine ⟨fun hany => ?_, fun hany => ?_⟩
    · rw [ends_bind]
      refine (ends_resetEquations (Model.parameter_modifyParameter hq _)).mono ?_ fun _ h => h.elim
      rintro _ w₂ ⟨hcleared, -⟩
      rw [ends_bind]
      refine (hnew hany w₂ hcleared).mono (fun _ w₃ h => ?_) fun _ h => h
      rw [ends_bind, ends_modifyModel, ends_pure, hany]
      exact h
    · rw [Bool.not_eq_true] at hany
      rw [ends_pure, hany]
      exact hold hany

/-- How adding values ends where it does not matter why a check fails. -/
theorem ends_add_of {ok : Bool → Workspace α → Prop} {fail : Workspace α → Prop} {values : List α}
    {label : Argument Label} {checked : Bool} (hfail : fail w)
    (h : ∀ q l rounded, w.model.parameter (.given p) = .ok q → label = .given l →
      l.isSelector = false → roundList q.digits values = .ok rounded →
      (checked = true → q.checkBounds rounded = .ok ()) →
      let f (q₁ : Parameter α) : Parameter α :=
        { q₁ with
          supports := (q.supports.addAll rounded l).2, hasInternal := q₁.hasInternal || l.internal }
      let w₁ := { w with model := w.model.modifyParameter p f }
      ((q.supports.addAll rounded l).1 = false → ok false w₁) ∧
      ((q.supports.addAll rounded l).1 = true → ∀ w₂, Cleared p (f q) w₁ w₂ →
        Ends (resetGenerative p) w₂
          (fun _ w₃ => ok true { w₃ with model := w₃.model.markStaleIfUsed p }) fail)) :
    Ends (add p values label checked) w ok fail :=
  ends_add_by (fun _ => hfail) h

/-- How replacing supports ends: the given values come in place of all others, and the equations
built from those are dropped. It fails only because of a check before it changes anything. -/
theorem ends_set_with {ok : Unit → Workspace α → Prop} {fail : Workspace α → Prop} {values : List α}
    {label : Argument Label} {force : Bool}
    (hfail : (∀ q l rounded, w.model.parameter (.given p) = .ok q → label = .given l →
      l.isSelector = false → (force = false → q.supports.supports = []) →
      roundList q.digits values = .ok rounded → q.checkBounds rounded ≠ .ok ()) → fail w)
    (h : ∀ q l rounded, w.model.parameter (.given p) = .ok q → label = .given l →
      l.isSelector = false → (force = false → q.supports.supports = []) →
      roundList q.digits values = .ok rounded → q.checkBounds rounded = .ok () →
      let f (q : Parameter α) : Parameter α :=
        { q with supports := (SupportMap.empty.addAll rounded l).2 }
      ∀ w₂, Cleared p (f q) { w with model := w.model.modifyParameter p f } w₂ →
        ok () { w₂ with model := (w₂.model.modifyParameter p fun q =>
          { q with hasGenerative := false, hasInternal := l.internal }).markStaleIfUsed p }) :
    Ends (set p values label force) w ok fail := by
  unfold set
  rw [ends_bind, ends_query]
  refine ⟨fun q hq => ?_, fun e he => hfail fun q _ _ hq => by rw [hq] at he; cases he⟩
  rw [ends_bind, ends_check]
  refine ⟨fun l hl => ?_, fun e he => hfail fun _ l _ _ hgiven hl => by
    rw [storable_eq_ok.2 ⟨hgiven, hl⟩] at he
    cases he⟩
  obtain ⟨hgiven, hselector⟩ := storable_eq_ok.1 hl
  dsimp only
  rw [ends_ite]
  refine ⟨fun hsome => (ends_bind _ _).2 ((ends_throw _).2 (hfail fun q₁ _ _ hq₁ _ _ hnone => ?_)),
    fun hnone => ?_⟩
  · obtain rfl : q = q₁ := Except.ok.inj (hq.symm.trans hq₁)
    simp only [Bool.and_eq_true, decide_eq_true_eq, Bool.not_eq_true'] at hsome
    simp [SupportMap.size, hnone hsome.2] at hsome
  rw [ends_bind, ends_check]
  refine ⟨fun rounded hr => ?_, fun e he => hfail fun q₁ _ _ hq₁ _ _ _ hr => by
    obtain rfl : q = q₁ := Except.ok.inj (hq.symm.trans hq₁)
    rw [Parameter.round, hr] at he
    cases he⟩
  rw [ends_bind, ends_check]
  refine ⟨fun _ hbounds => ?_, fun e he => hfail fun q₁ _ rounded₁ hq₁ _ _ _ hr₁ => by
    obtain rfl : q = q₁ := Except.ok.inj (hq.symm.trans hq₁)
    obtain rfl : rounded = rounded₁ := Except.ok.inj (hr.symm.trans hr₁)
    simp [he]⟩
  have replaced := h q l rounded hq hgiven hselector
    (fun hforce => by simpa [hforce, SupportMap.size] using hnone) hr hbounds
  rw [ends_ite]
  refine ⟨fun _ => ?_, fun _ => ?_⟩
  -- a warning about repeated points is nothing that the rest looks at
  on_goal 1 => rw [ends_bind, ends_warn]
  all_goals
    rw [ends_bind, ends_modifyModel, ends_bind]
    refine (ends_resetEquations (Model.parameter_modifyParameter hq _)).mono ?_ fun _ h => h.elim
    rintro _ w₂ ⟨⟨⟨hmodel, hsettings, hgenerators⟩, hq₂, hdropped, hkept⟩, -⟩
    rw [ends_bind, ends_modifyModel, ends_modifyModel]
    exact replaced w₂ ⟨⟨hmodel, hsettings, hgenerators⟩, hq₂, hdropped, hkept⟩

/-- How replacing supports ends where it does not matter why a check fails. -/
theorem ends_set_by {ok : Unit → Workspace α → Prop} {fail : Workspace α → Prop} {values : List α}
    {label : Argument Label} {force : Bool} (hfail : fail w)
    (h : ∀ q l rounded, w.model.parameter (.given p) = .ok q → label = .given l →
      l.isSelector = false → (force = false → q.supports.supports = []) →
      roundList q.digits values = .ok rounded → q.checkBounds rounded = .ok () →
      let f (q : Parameter α) : Parameter α :=
        { q with supports := (SupportMap.empty.addAll rounded l).2 }
      ∀ w₂, Cleared p (f q) { w with model := w.model.modifyParameter p f } w₂ →
        ok () { w₂ with model := (w₂.model.modifyParameter p fun q =>
          { q with hasGenerative := false, hasInternal := l.internal }).markStaleIfUsed p }) :
    Ends (set p values label force) w ok fail :=
  ends_set_with (fun _ => hfail) h

/-- How replacing supports ends, whatever the label is and wherever the values lie. -/
theorem ends_set_of {ok : Unit → Workspace α → Prop} {fail : Workspace α → Prop} {values : List α}
    {label : Argument Label} {force : Bool} (hfail : fail w)
    (h : ∀ q l rounded, w.model.parameter (.given p) = .ok q → l.isSelector = false →
      (force = false → q.supports.supports = []) → roundList q.digits values = .ok rounded →
      let f (q : Parameter α) : Parameter α :=
        { q with supports := (SupportMap.empty.addAll rounded l).2 }
      ∀ w₂, Cleared p (f q) { w with model := w.model.modifyParameter p f } w₂ →
        ok () { w₂ with model := (w₂.model.modifyParameter p fun q =>
          { q with hasGenerative := false, hasInternal := l.internal }).markStaleIfUsed p }) :
    Ends (set p values label force) w ok fail :=
  ends_set_by hfail fun q l rounded hq _ hl hnone hr _ => h q l rounded hq hl hnone hr

/-- How putting derived supports in place ends: where they are in place or not asked for, nothing
happens, and otherwise the derived values are added. -/
theorem ends_addGenerative_of {ok : Unit → Workspace α → Prop} {fail : Workspace α → Prop}
    (hfail : fail w)
    (hsame : ∀ q, w.model.parameter (.given p) = .ok q →
      q.hasGenerative = true ∨ q.info = .none → ok () w)
    (h : ∀ q basis label derived, w.model.parameter (.given p) = .ok q → q.hasGenerative = false →
      q.info = .uniform basis label →
      q.info.makeSupports (q.supports.baseValues label) s!"'{q.name}'" = .ok derived →
      Ends (add p derived (.given label) false) w
        (fun _ w₁ => ok () { w₁ with model := w₁.model.modifyParameter p fun q =>
          { q with hasGenerative := true } }) fail) :
    Ends (addGenerative p) w ok fail := by
  unfold addGenerative
  rw [ends_bind, ends_query]
  refine ⟨fun q hq => ?_, fun _ _ => hfail⟩
  rw [ends_ite]
  refine ⟨fun hset => (ends_pure _).2 (hsame q hq (.inl hset)), fun hmissing => ?_⟩
  rw [Bool.not_eq_true] at hmissing
  -- the way in which supports are derived is nothing, unknown or a basis for each element
  cases hinfo : q.info with
  | none => exact (ends_pure _).2 (hsame q hq (.inr hinfo))
  | undefined =>
    rw [ends_bind, ends_check]
    exact ⟨nofun, fun _ _ => hfail⟩
  | uniform basis label =>
    rw [ends_bind, ends_check]
    refine ⟨fun l hl => ?_, fun _ _ => hfail⟩
    obtain rfl : label = l := by simpa [GenerativeInfo.label] using hl
    rw [ends_bind, ends_check]
    refine ⟨fun derived hderived => ?_, fun _ _ => hfail⟩
    simp only [ends_bind, ends_modifyModel]
    exact h q basis label derived hq hmissing hinfo (hinfo ▸ hderived)

/-! ## What is left of the invariant -/

theorem Cleared.sound (h : Cleared p q w w') (hs : w.model.Sound)
    (hq : w.model.parameter (.given p) = .ok q) : w'.model.Sound := by
  refine hs.alter h.touches.model.toAlters hq h.parameter ?_
    (.inr (h.unevaluated fun hflag => hs.unevaluated hq hflag))
  obtain ⟨hscalar, hordered, hderived⟩ := hs.parameter p q hq
  exact ⟨hscalar, hordered, hderived⟩

theorem Cleared.defined (h : Cleared p q w w') (hq : w.model.parameter (.given p) = .ok q)
    (hd : w'.model.DefinedAt p) : w.model.DefinedAt p :=
  (Model.definedAt_iff hq).2 ((Model.definedAt_iff h.parameter).1 hd)

section Lawful

variable [LawfulScalar α]

/-- Supports that are defined without some labels were defined with them. -/
theorem defined_of_strip {m : SupportMap α} {selectors : List Label}
    (h : ∀ x ∈ (m.strip selectors).1.values, Scalar.Defined x) :
    ∀ x ∈ m.values, Scalar.Defined x := by
  by_contra hundef
  simp only [not_forall] at hundef
  obtain ⟨x, hx, hxd⟩ := hundef
  obtain ⟨y, hy, hyd⟩ := SupportMap.undefined_mem_strip selectors ⟨x, hx, hxd⟩
  exact hyd (h y hy)

/-- A parameter with labels stripped from its supports is still sound. -/
theorem sound_strip (hs : q.Sound) (selectors : List Label) {q' : Parameter α}
    (hdomain : q'.domain = q.domain) (hsupports : q'.supports = (q.supports.strip selectors).1)
    (hflag : q'.hasGenerative = false) : q'.Sound where
  scalar := by rw [hdomain]; exact hs.scalar
  ordered hdef := by
    rw [hsupports] at hdef ⊢
    exact SupportMap.increasing_strip (hs.ordered (defined_of_strip hdef)) selectors
  derived h := by rw [hflag] at h; cases h

/-- Deleting a label keeps the objects fitting together. Where the label of derived supports is
known, it fails only at an undefined support. -/
theorem ends_delete_of_sound {label : Label} (hl : label ≠ .all) (hs : w.model.Sound)
    (hq : w.model.parameter (.given p) = .ok q) :
    Ends (delete p label) w
      (fun _ w' => w'.model.Sound ∧ (w'.model.DefinedAt p → w.model.DefinedAt p) ∧
        (w'.model.ready = true → w.model.isUsed p = false) ∧
        ∃ q' derived, w'.model.parameter (.given p) = .ok q' ∧ q.info.label = .ok derived ∧
          q'.supports = (q.supports.strip (selectors q label derived)).1 ∧
          q'.hasGenerative = false)
      fun w' => w'.model.Sound ∧ (w'.model.DefinedAt p → w.model.DefinedAt p) ∧
        ∀ derived, q.info.label = .ok derived → ¬ w'.model.DefinedAt p := by
  refine ends_delete hl (fun e he => by rw [hq] at he; cases he) fun q₀ w₁ hq₀ hw₁ => ?_
  rw [hq] at hq₀
  cases hq₀
  have hs₁ := hw₁.sound hs hq
  have hu₁ := hw₁.unevaluated fun hflag => hs.unevaluated hq hflag
  refine ⟨fun e he => ⟨hs₁, hw₁.defined hq, fun derived hd => ?_⟩,
    fun derived hd supports failed hstrip => ?_⟩
  · rw [he] at hd
    cases hd
  intro m
  -- the parameter with the labels stripped off
  have hq₂ : m.parameter (.given p) = .ok _ := Model.parameter_modifyParameter hw₁.parameter _
  have hsupports : supports = (q.supports.strip (selectors q label derived)).1 := by rw [hstrip]
  have hs₂ : m.Sound := hs₁.modifyParameter hw₁.parameter hu₁ (fun _ => ⟨rfl, rfl, rfl⟩)
    (sound_strip (hs.parameter p q hq) (selectors q label derived) rfl hsupports rfl)
  have hu₂ : m.Unevaluated p :=
    hu₁.of_objects (Model.sameObjects_modifyParameter _ p _) fun _ => rfl
  have hdef : ∀ (m' : Model α) q', m'.parameter (.given p) = .ok q' →
      q'.supports = supports → m'.DefinedAt p → w.model.DefinedAt p := by
    intro m' q' hq' hsup hd
    rw [Model.definedAt_iff hq', hsup, hsupports] at hd
    exact (Model.definedAt_iff hq).2 (defined_of_strip hd)
  have ht₂ : w.model.Touches p m :=
    hw₁.touches.model.trans (Model.touches_modifyParameter _ p _ fun _ => ⟨rfl, rfl, rfl⟩)
  refine ⟨fun hfailed => ⟨hs₂, hdef m _ hq₂ rfl, fun _ _ hm => ?_⟩, fun _ => ?_⟩
  · -- on defined supports nothing is left to fail
    have hord := (hs.parameter p q hq).ordered (hdef m _ hq₂ rfl hm q hq)
    rw [SupportMap.strip_eq hord] at hstrip
    cases hstrip
    cases hfailed
  · let f (q : Parameter α) : Parameter α :=
      { q with hasInternal := q.hasInternal && supports.hasInternal }
    have hq₃ := Model.parameter_modifyParameter hq₂ f
    have hs₃ : (m.modifyParameter p f).Sound :=
      hs₂.modifyParameter hq₂ hu₂ (fun _ => ⟨rfl, rfl, rfl⟩)
        (sound_strip (hs.parameter p q hq) (selectors q label derived) rfl hsupports rfl)
    have hq₄ := (Model.parameter_markStaleIfUsed (m := m.modifyParameter p f) (p := p) _).trans hq₃
    exact ⟨hs₃.markStaleIfUsed hq₃, hdef _ _ hq₄ rfl,
      (ht₂.objects.trans (Model.sameObjects_modifyParameter m p f)).unused_of_ready,
      _, derived, hq₄, hd, hsupports, rfl⟩

omit [LawfulScalar α] in
/-- Deleting every support keeps the objects fitting together. -/
theorem sound_delete_all (hs : w.model.Sound) :
    Ends (delete p .all) w
      (fun _ w' => w'.model.Sound ∧ (w'.model.ready = true → w.model.isUsed p = false))
      fun w' => w'.model = w.model := by
  refine ends_delete_all rfl fun q w₁ hq hw₁ => ?_
  let f (q : Parameter α) : Parameter α :=
    { q with supports := .empty, hasGenerative := false, hasInternal := false }
  have hq₂ := Model.parameter_modifyParameter hw₁.parameter f
  have hs₂ : (w₁.model.modifyParameter p f).Sound := by
    refine (hw₁.sound hs hq).modifyParameter hw₁.parameter
      (hw₁.unevaluated fun hflag => hs.unevaluated hq hflag) (fun _ => ⟨rfl, rfl, rfl⟩) ?_
    exact ⟨(hs.parameter p q hq).scalar, fun _ => .nil, nofun⟩
  exact ⟨hs₂.markStaleIfUsed hq₂,
    (hw₁.touches.model.objects.trans (Model.sameObjects_modifyParameter _ p f)).unused_of_ready⟩

/-- Taking derived supports away keeps the objects fitting together, and fails only at an undefined
support. -/
theorem ends_resetGenerative (hs : w.model.Sound) (hq : w.model.parameter (.given p) = .ok q) :
    Ends (resetGenerative p) w
      (fun _ w' => w'.model.Sound ∧ (w'.model.DefinedAt p → w.model.DefinedAt p) ∧
        ∃ q', w'.model.parameter (.given p) = .ok q' ∧ q'.hasGenerative = false ∧
          (q.hasGenerative = false → w' = w) ∧
          (q.hasGenerative = true → (w'.model.ready = true → w.model.isUsed p = false) ∧
            ∃ basis derived, q.info = .uniform basis derived ∧
              q'.supports = (q.supports.strip [derived]).1))
      fun w' => w'.model.Sound ∧ ¬ w'.model.DefinedAt p := by
  simp only [resetGenerative, ends_bind, ends_query, hq, reduceCtorEq, false_implies, implies_true,
    and_true, Except.ok.injEq, forall_eq']
  rw [ends_ite]
  refine ⟨fun hflag => ?_, fun hflag => ?_⟩
  · obtain ⟨basis, derived, hinfo, hselector, -⟩ := (hs.parameter p q hq).derived hflag
    have hlabel : q.info.label = .ok derived := by rw [hinfo]; rfl
    -- the label of derived supports is none that stands for all
    have hall : derived ≠ .all := by rintro rfl; cases hselector
    simp only [ends_bind, ends_check, hlabel, reduceCtorEq, false_implies, implies_true, and_true,
      Except.ok.injEq, forall_eq']
    refine (ends_delete_of_sound hall hs hq).mono ?_ fun w' h => ⟨h.1, h.2.2 derived hlabel⟩
    rintro _ w' ⟨hs', hdef, hready, q', derived', hq', hlabel', hsupports, hgen⟩
    rw [hlabel] at hlabel'
    cases hlabel'
    refine ⟨hs', hdef, q', hq', hgen, fun h => ?_, fun _ => ⟨hready, basis, derived, hinfo, ?_⟩⟩
    · rw [hflag] at h
      cases h
    · rw [hsupports, selectors]
      simp
  · rw [Bool.not_eq_true] at hflag
    refine (ends_pure _).2 ⟨hs, fun h => h, q, hq, hflag, fun _ => rfl, fun h => ?_⟩
    rw [hflag] at h
    cases h

/-! ## Adding supports -/

/-- How adding values changes a parameter: the values are added, and if one of them is new, derived
supports in place are taken away. -/
structure Added (q q' : Parameter α) (rounded : List α) (label : Label) (anyNew : Bool) : Prop where
  storable : label.isSelector = false
  flag : anyNew = (q.supports.addAll rounded label).1
  generative : q'.hasGenerative = (q.hasGenerative && !anyNew)
  supports : q'.supports = (q.supports.addAll rounded label).2 ∨
    q.hasGenerative = true ∧ anyNew = true ∧ ∃ basis derived, q.info = .uniform basis derived ∧
      q'.supports = ((q.supports.addAll rounded label).2.strip [derived]).1

omit [LawfulScalar α] in
theorem moves_resetGenerative (p : Ref) :
    Moves (Touches p) (resetGenerative p : Operation α Unit) := by
  refine (moves_query _).bind fun parameter => ?_
  split
  · exact (moves_check _).bind fun derived => moves_delete p derived
  · exact .pure _

omit [LawfulScalar α] in
theorem moves_add (p : Ref) (values : List α) (label : Argument Label) (checked : Bool) :
    Moves (Touches p) (add p values label checked) := by
  refine ⟨fun w => ends_add_of (refl_of (Touches p) w) fun q l rounded _ _ _ _ _ => ?_⟩
  have ht₁ : w.Touches p { w with
      model := w.model.modifyParameter p fun q₁ =>
        { q₁ with
          supports := (q.supports.addAll rounded l).2,
          hasInternal := q₁.hasInternal || l.internal } } :=
    (refl_of (Touches p) w).modifyParameter fun _ => ⟨rfl, rfl, rfl⟩
  refine ⟨fun _ => ht₁, fun _ w₂ hcleared => ?_⟩
  have ht₂ := trans_of (Touches p) ht₁ hcleared.touches
  exact ((moves_resetGenerative p).ends w₂).mono
    (fun _ _ ht => (trans_of (Touches p) ht₂ ht).markStaleIfUsed p)
    fun _ ht => trans_of (Touches p) ht₂ ht

/-- A parameter with values added to its supports is still sound. -/
theorem sound_addAll (hs : q.Sound) {q' : Parameter α} {values : List α} {l : Label}
    (hdomain : q'.domain = q.domain) (hinfo : q'.info = q.info)
    (hsupports : q'.supports = (q.supports.addAll values l).2)
    (hflag : q'.hasGenerative = q.hasGenerative) : q'.Sound where
  scalar := by rw [hdomain]; exact hs.scalar
  ordered hdef := by
    rw [hsupports] at hdef ⊢
    have hsub := SupportMap.values_sublist_addAll q.supports values l
    exact SupportMap.increasing_addAll (hs.ordered fun x hx => hdef x (hsub.subset hx))
      (SupportMap.defined_of_addAll hdef) l
  -- supports to derive from do not go when others are added
  derived h := by
    rw [hflag] at h
    obtain ⟨basis, label, hi, hl, hne⟩ := hs.derived h
    refine ⟨basis, label, hinfo.trans hi, hl, fun hnil => hne ?_⟩
    have hsub := SupportMap.values_sublist_addAll q.supports values l
    rw [← hsupports, SupportMap.values, SupportMap.values, hnil] at hsub
    simpa using hsub

/-- After supports changed and the stored equations were dropped, the derived supports are taken
away too, and the model becomes stale if something depends on the parameter. That fails only at an
undefined support. -/
theorem ends_refresh (hs : w.model.Sound) (hq : w.model.parameter (.given p) = .ok q)
    (hcleared : Cleared p q w w') :
    Ends (resetGenerative p) w'
      (fun _ w'' => (w''.model.markStaleIfUsed p).Sound ∧
        ((w''.model.markStaleIfUsed p).DefinedAt p → w.model.DefinedAt p) ∧
        ((w''.model.markStaleIfUsed p).ready = true → w.model.isUsed p = false) ∧
        ∃ q', (w''.model.markStaleIfUsed p).parameter (.given p) = .ok q' ∧
          q'.hasGenerative = false ∧ (q.hasGenerative = false → q'.supports = q.supports) ∧
          (q.hasGenerative = true → ∃ basis derived, q.info = .uniform basis derived ∧
            q'.supports = (q.supports.strip [derived]).1))
      fun w'' => w''.model.Sound ∧ ¬ w''.model.DefinedAt p := by
  refine ((ends_resetGenerative (hcleared.sound hs hq) hcleared.parameter).and
    ((moves_resetGenerative p).ends w')).mono ?_ fun _ h => h.1
  rintro _ w₂ ⟨⟨hs₂, hdef, q', hq', hgen, hsame, hstrip⟩, ht⟩
  refine ⟨hs₂.markStaleIfUsed hq',
    fun h => hcleared.defined hq (hdef (Model.definedAt_markStaleIfUsed.1 h)),
    (hcleared.touches.model.objects.trans ht.model.objects).unused_of_ready, q', ?_, hgen,
    fun h => ?_, fun h => (hstrip h).2⟩
  · rw [Model.parameter_markStaleIfUsed, hq']
  · -- without derived supports in place, nothing is left to do
    have hw := hsame h
    subst hw
    rw [hcleared.parameter] at hq'
    cases hq'
    rfl

/-- Adding supports. -/
theorem ends_add (hs : w.model.Sound) (hq : w.model.parameter (.given p) = .ok q)
    (values : List α) (label : Argument Label) (checked : Bool) :
    Ends (add p values label checked) w
      (fun anyNew w' => w'.model.Sound ∧ (w'.model.DefinedAt p → w.model.DefinedAt p) ∧
        (anyNew = false → w.model.SameGrid w'.model) ∧
        (anyNew = true → w'.model.ready = true → w.model.isUsed p = false) ∧
        ∃ l rounded q', label = .given l ∧ roundList q.digits values = .ok rounded ∧
          w'.model.parameter (.given p) = .ok q' ∧ Added q q' rounded l anyNew)
      fun w' => w'.model.Sound ∧ (w'.model.DefinedAt p → w.model.DefinedAt p) ∧
        (w'.model = w.model ∨ ¬ w'.model.DefinedAt p) := by
  refine ends_add_of ⟨hs, fun h => h, .inl rfl⟩ fun q₀ l rounded hq₀ hgiven hselector hr _ => ?_
  obtain rfl : q = q₀ := Except.ok.inj (hq.symm.trans hq₀)
  -- the parameter with the values added
  let f (q₁ : Parameter α) : Parameter α :=
    { q₁ with supports := (q.supports.addAll rounded l).2,
              hasInternal := q₁.hasInternal || l.internal }
  have hq₁ := Model.parameter_modifyParameter hq f
  have ht₁ := Model.touches_modifyParameter w.model p f fun _ => ⟨rfl, rfl, rfl⟩
  have hsub := SupportMap.values_sublist_addAll q.supports rounded l
  have hs₁ : (w.model.modifyParameter p f).Sound :=
    hs.alter ht₁.toAlters hq hq₁ (sound_addAll (hs.parameter p q hq) rfl rfl rfl rfl)
      (.inl ⟨hsub.subset, fun h => h, fun _ => rfl⟩)
  have hd₁ : (w.model.modifyParameter p f).DefinedAt p → w.model.DefinedAt p := by
    rw [Model.definedAt_iff hq₁, Model.definedAt_iff hq]
    exact fun h x hx => h x (hsub.subset hx)
  refine ⟨fun hold => ?_, fun hnew w₂ hcleared => ?_⟩
  · have hvalues := SupportMap.values_addAll_of_not_new hold
    exact ⟨hs₁, hd₁, fun _ => ht₁.sameGrid hq hq₁ hvalues (fun h => h) fun _ => rfl, nofun,
      l, rounded, f q, hgiven, hr, hq₁, hselector, hold.symm, (Bool.and_true _).symm, .inl rfl⟩
  · refine (ends_refresh hs₁ hq₁ hcleared).mono ?_ fun w' ⟨hs', hundef⟩ =>
      ⟨hs', fun h => absurd h hundef, .inr hundef⟩
    rintro _ w' ⟨hs', hdef, hready, q', hq', hgen, hsame, hstrip⟩
    refine ⟨hs', hd₁ ∘ hdef, nofun, fun _ hr => ?_, l, rounded, q', hgiven, hr, hq', hselector,
      hnew.symm, ?_, ?_⟩
    · rw [← ht₁.objects.isUsed, hready hr]
    · rw [hgen, Bool.not_true, Bool.and_false]
    · cases hflag : q.hasGenerative with
      | false => exact .inl (hsame hflag)
      | true => exact .inr ⟨rfl, rfl, hstrip hflag⟩

omit [LawfulScalar α] in
/-- Values that pass the check lie between the bounds of the domain. -/
theorem between_of_checkBounds {values : List α} (h : q.checkBounds values = .ok ()) :
    ∃ lower upper, q.domain.bounds = .ok (lower, upper) ∧
      ∀ x ∈ values, Scalar.between lower upper x = true := by
  simp only [Parameter.checkBounds, Except.bind_eq_ok] at h
  obtain ⟨⟨lower, upper⟩, hbounds, h⟩ := h
  dsimp only at h
  split at h
  · rename_i hinside
    refine ⟨lower, upper, hbounds, fun x hx => ?_⟩
    simpa using List.filter_eq_nil_iff.1 (List.isEmpty_iff.1 hinside) x hx
  · cases h

/-- Values within the bounds of a domain are defined. -/
theorem defined_of_checkBounds {values : List α} (h : q.checkBounds values = .ok ()) :
    ∀ x ∈ values, Scalar.Defined x := by
  obtain ⟨lower, upper, -, hbetween⟩ := between_of_checkBounds h
  exact fun x hx => Scalar.defined_of_between (hbetween x hx)

omit [LawfulScalar α] in
/-- Where the bounds are checked, values are added only within them. -/
theorem checked_of_add (values : List α) (label : Argument Label) :
    Ends (add p values label true) w
      (fun _ _ => ∀ q, w.model.parameter (.given p) = .ok q →
        ∃ rounded, roundList q.digits values = .ok rounded ∧ q.checkBounds rounded = .ok ())
      fun _ => True := by
  refine ends_add_of trivial fun q l rounded hq _ _ hr hbounds => ?_
  have hall : ∀ q₁, w.model.parameter (.given p) = .ok q₁ →
      ∃ rounded, roundList q₁.digits values = .ok rounded ∧ q₁.checkBounds rounded = .ok () := by
    intro q₁ hq₁
    obtain rfl : q = q₁ := Except.ok.inj (hq.symm.trans hq₁)
    exact ⟨rounded, hr, hbounds rfl⟩
  exact ⟨fun _ => hall, fun _ _ _ => .of_forall (fun _ _ => hall) fun _ => trivial⟩

/-- Values that are checked leave the supports defined. -/
theorem defined_of_checked_add (hs : w.model.Sound) (values : List α) (label : Argument Label) :
    Ends (add p values label true) w (fun _ w' => w.model.DefinedAt p → w'.model.DefinedAt p)
      fun _ => True := by
  cases hq : w.model.parameter (.given p) with
  | error e => simp [add, hq]
  | ok q =>
    refine ((ends_add hs hq values label true).and (checked_of_add values label)).mono ?_
      fun _ _ => trivial
    rintro anyNew w' ⟨⟨-, -, -, -, l, rounded, q', -, hr, hq', hadded⟩, hchecked⟩ hdef
    obtain ⟨rounded₁, hr₁, hbounds⟩ := hchecked q hq
    obtain rfl : rounded = rounded₁ := Except.ok.inj (hr.symm.trans hr₁)
    have hrounded := defined_of_checkBounds hbounds
    have hall : ∀ x ∈ (q.supports.addAll rounded l).2.values, Scalar.Defined x := fun x hx =>
      (SupportMap.mem_values_addAll hx).elim (hdef q hq x) (hrounded x)
    rw [Model.definedAt_iff hq']
    -- taking derived supports away afterwards leaves fewer values
    rcases hadded.supports with hsup | ⟨-, -, basis, derived, -, hsup⟩
    · rwa [hsup]
    · rw [hsup]
      exact fun x hx => hall x (SupportMap.values_strip_subset _ hx)

/-! ## The invariant is kept -/

theorem inv_add (h : w.model.Inv full) (values : List α) (label : Argument Label) (checked : Bool) :
    Ends (add p values label checked) w (fun _ w' => w'.model.Inv full)
      fun w' => w'.model.Inv full := by
  cases hq : w.model.parameter (.given p) with
  | error e => simp [add, hq, h]
  | ok q =>
    refine ((ends_add h.sound hq values label checked).and
      ((moves_add p values label checked).ends w)).mono ?_ ?_
    · rintro anyNew w' ⟨⟨hs', hdef, hgrid, hunused, -⟩, ht⟩
      cases anyNew with
      | false => exact h.alter ht.model.toAlters hq hs' (fun _ _ => hdef) fun _ _ _ _ => hgrid rfl
      | true => exact h.alter_of_unused ht.model.toAlters hq hs' (hunused rfl)
    · rintro w' ⟨⟨hs', hdef, hsame | hundef⟩, ht⟩
      · rw [hsame]
        exact h
      · exact h.alter ht.model.toAlters hq hs' (fun _ _ => hdef) fun _ hd => absurd hd hundef

theorem inv_delete (h : w.model.Inv full) (label : Label) :
    Ends (delete p label) w (fun _ w' => w'.model.Inv full) fun w' => w'.model.Inv full := by
  cases hq : w.model.parameter (.given p) with
  | error e => simp [delete, hq, h]
  | ok q =>
    by_cases hall : label = .all
    · subst hall
      refine ((sound_delete_all h.sound).and ((moves_delete p .all).ends w)).mono ?_ ?_
      · rintro _ w' ⟨⟨hs', hunused⟩, ht⟩
        exact h.alter_of_unused ht.model.toAlters hq hs' hunused
      · rintro w' ⟨hsame, -⟩
        rw [hsame]
        exact h
    · refine ((ends_delete_of_sound hall h.sound hq).and ((moves_delete p label).ends w)).mono ?_ ?_
      · rintro _ w' ⟨⟨hs', -, hunused, -⟩, ht⟩
        exact h.alter_of_unused ht.model.toAlters hq hs' hunused
      · rintro w' ⟨⟨hs', hbefore, hundef⟩, ht⟩
        refine h.alter ht.model.toAlters hq hs' (fun _ _ => hbefore) fun hm hd hr hu => ?_
        -- the label of derived supports is known where the model is ready and the parameter used
        obtain ⟨derived, hderived, -⟩ := Model.label_of_derived (h.sound.parameter p q hq)
          ((h.ready hm).derived (ht.model.ready hr) hu hq)
        exact absurd hd (hundef derived hderived)

theorem inv_resetGenerative (h : w.model.Inv full) :
    Ends (resetGenerative p) w (fun _ w' => w'.model.Inv full) fun w' => w'.model.Inv full := by
  cases hq : w.model.parameter (.given p) with
  | error e => simp [resetGenerative, hq, h]
  | ok q =>
    refine ((ends_resetGenerative h.sound hq).and ((moves_resetGenerative p).ends w)).mono ?_ ?_
    · rintro _ w' ⟨⟨hs', -, q', hq', -, hsame, hunused⟩, ht⟩
      cases hflag : q.hasGenerative with
      | false =>
        rw [hsame hflag]
        exact h
      | true => exact h.alter_of_unused ht.model.toAlters hq hs' (hunused hflag).1
    · rintro w' ⟨⟨hs', hundef⟩, ht⟩
      exact h.alter ht.model.toAlters hq hs' (fun _ _ hd => absurd hd hundef)
        fun _ hd => absurd hd hundef

/-! ## Replacing supports -/

/-- Replacing supports keeps the objects fitting together, and fails only before it changes
anything. -/
theorem ends_set (hs : w.model.Sound) (values : List α) (label : Argument Label) (force : Bool) :
    Ends (set p values label force) w
      (fun _ w' => w'.model.Sound ∧ w.Touches p w' ∧
        (w'.model.ready = true → w.model.isUsed p = false) ∧
        ∃ q, w.model.parameter (.given p) = .ok q)
      fun w' => w' = w := by
  refine ends_set_of rfl fun q l rounded hq _ _ _ w₂ hcleared => ?_
  let f (q : Parameter α) : Parameter α :=
    { q with supports := (SupportMap.empty.addAll rounded l).2 }
  let g (q : Parameter α) : Parameter α :=
    { q with hasGenerative := false, hasInternal := l.internal }
  have hq₃ := Model.parameter_modifyParameter hcleared.parameter g
  have ht₁ : w.Touches p { w with model := w.model.modifyParameter p f } :=
    (refl_of (Touches p) w).modifyParameter fun _ => ⟨rfl, rfl, rfl⟩
  have ht₂ := trans_of (Touches p) ht₁ hcleared.touches
  have ht₃ : w.Touches p { w₂ with model := w₂.model.modifyParameter p g } :=
    ht₂.modifyParameter fun _ => ⟨rfl, rfl, rfl⟩
  -- the equations went with the old supports
  have hu₃ : (w₂.model.modifyParameter p g).Unevaluated p :=
    (hcleared.unevaluated fun hflag =>
      (hs.unevaluated hq hflag).of_objects ht₁.model.objects fun _ => rfl).of_objects
        (Model.sameObjects_modifyParameter _ p g) fun _ => rfl
  have hs₃ : (w₂.model.modifyParameter p g).Sound :=
    hs.alter ht₃.model.toAlters hq hq₃
      ⟨(hs.parameter p q hq).scalar,
        fun hdef => SupportMap.increasing_addAll (m := .empty) .nil
          (SupportMap.defined_of_addAll hdef) l, nofun⟩
      (.inr hu₃)
  exact ⟨hs₃.markStaleIfUsed hq₃, ht₃.markStaleIfUsed p, ht₃.model.objects.unused_of_ready, q, hq⟩

theorem inv_set (h : w.model.Inv full) (values : List α) (label : Argument Label) (force : Bool) :
    Ends (set p values label force) w (fun _ w' => w'.model.Inv full)
      fun w' => w'.model.Inv full := by
  refine (ends_set h.sound values label force).mono ?_ ?_
  · rintro _ w' ⟨hs', ht, hunused, q, hq⟩
    exact h.alter_of_unused ht.model.toAlters hq hs' hunused
  · rintro w' rfl
    exact h

/-! ## Generated and derived supports -/

/-- The invariant is kept: if it holds before, it holds after. -/
def KeepsInv (full : Prop) (w w' : Workspace α) : Prop := w.model.Inv full → w'.model.Inv full

omit [LawfulScalar α] in
instance : IsPreorder (Workspace α) (KeepsInv full) where
  refl _ h := h
  trans _ _ _ h h' := h' ∘ h

omit [LawfulScalar α] in
theorem moves_of_inv {β : Type} {op : Operation α β}
    (h : ∀ w : Workspace α, w.model.Inv full →
      Ends op w (fun _ w' => w'.model.Inv full) fun w' => w'.model.Inv full) :
    Moves (KeepsInv full) op :=
  .of_keeps h

omit [LawfulScalar α] in
theorem inv_of_moves {β : Type} {op : Operation α β} (h : Moves (KeepsInv full) op)
    (hw : w.model.Inv full) :
    Ends op w (fun _ w' => w'.model.Inv full) fun w' => w'.model.Inv full :=
  (h.ends w).mono (fun _ _ h' => h' hw) fun _ h' => h' hw

omit [LawfulScalar α] in
theorem keepsInv_onEnvironment {β : Type} (action : EnvironmentAction α β) :
    Moves (KeepsInv full) (onEnvironment action) :=
  ⟨fun _ => (ends_onEnvironment action).2 (.of_forall (fun _ _ h => h) fun _ h => h)⟩

theorem keepsInv_add (p : Ref) (values : List α) (label : Argument Label) (checked : Bool) :
    Moves (KeepsInv full) (add p values label checked) :=
  moves_of_inv fun _ h => inv_add h values label checked

section Generated

variable {R : Workspace α → Workspace α → Prop} [IsPreorder (Workspace α) R]

omit [LawfulScalar α] in
/-- What adding supports and actions on the environment keep, generating supports keeps. -/
theorem moves_generateAndAdd
    (hadd : ∀ values label checked, Moves R (add (α := α) p values label checked))
    (henv : ∀ {β : Type} {action : EnvironmentAction α β},
      Moves Environment.SameRules action → Moves R (onEnvironment action))
    (method : Option Label) (count : Option Int) (extra : Bool) (source : Option Nat) :
    Moves R (generateAndAdd (α := α) p method count extra source) :=
  (moves_query _).bind fun _ =>
    (henv (Generation.moves_generate _ _ _ _ _)).bind fun _ => hadd _ _ _

omit [LawfulScalar α] in
/-- What generating supports and actions on the environment keep, filling in supports keeps. -/
theorem moves_fillIn
    (hgenerate : ∀ method count extra source,
      Moves R (generateAndAdd (α := α) p method count extra source))
    (henv : ∀ {β : Type} {action : EnvironmentAction α β},
      Moves Environment.SameRules action → Moves R (onEnvironment action))
    (count : Option Int) (extend : Bool) (source : Option Nat) :
    Moves R (fillIn (α := α) p count extend source) := by
  -- what follows once the count is known
  have tail : ∀ count : Int, Moves R (do
      let current : Int := (← query (·.parameter p)).supports.size
      if (extend || current = 0) && current < count then
        let _ ← generateAndAdd p none (some (count - current)) (0 < current) source
      : Operation α Unit) := by
    intro count
    refine (moves_query _).bind fun _ => ?_
    dsimp only
    split
    · exact (hgenerate _ _ _ _).bind fun _ => .pure _
    · exact .pure _
  unfold fillIn
  cases count with
  | some count => exact (Moves.pure _).bind fun count => tail count
  | none => exact (henv Environment.moves_defaultCount).bind fun count => tail count

end Generated

omit [LawfulScalar α] in
theorem touches_generateAndAdd (p : Ref) (method : Option Label) (count : Option Int)
    (extra : Bool) (source : Option Nat) :
    Moves (Touches p) (generateAndAdd (α := α) p method count extra source) :=
  moves_generateAndAdd (moves_add p) moves_onEnvironment method count extra source

omit [LawfulScalar α] in
theorem touches_fillIn (p : Ref) (count : Option Int) (extend : Bool) (source : Option Nat) :
    Moves (Touches p) (fillIn (α := α) p count extend source) :=
  moves_fillIn (touches_generateAndAdd p) moves_onEnvironment count extend source

theorem keepsInv_generateAndAdd (p : Ref) (method : Option Label) (count : Option Int)
    (extra : Bool) (source : Option Nat) :
    Moves (KeepsInv full) (generateAndAdd (α := α) p method count extra source) :=
  moves_generateAndAdd (keepsInv_add p) (fun _ => keepsInv_onEnvironment _) method count extra
    source

theorem keepsInv_fillIn (p : Ref) (count : Option Int) (extend : Bool) (source : Option Nat) :
    Moves (KeepsInv full) (fillIn (α := α) p count extend source) :=
  moves_fillIn (keepsInv_generateAndAdd p) (fun _ => keepsInv_onEnvironment _) count extend source

omit [LawfulScalar α] in
theorem moves_addGenerative (p : Ref) : Moves (Touches p) (addGenerative (α := α) p) := by
  refine ⟨fun w => ends_addGenerative_of (refl_of (Touches p) w)
    (fun _ _ _ => refl_of (Touches p) w) fun q basis label derived _ _ _ _ => ?_⟩
  exact ((moves_add p derived (.given label) false).ends w).mono
    (fun _ _ ht => ht.modifyParameter fun _ => ⟨rfl, rfl, rfl⟩) fun _ ht => ht

/-- How putting derived supports in place ends: where they are in place or not asked for, nothing
happens; otherwise derived values are added beside the others. -/
theorem ends_addGenerative (h : w.model.Inv full) (hq : w.model.parameter (.given p) = .ok q) :
    Ends (addGenerative p) w
      (fun _ w' => w'.model.Inv full ∧ w.Touches p w' ∧
        ((q.hasGenerative = true ∨ q.info = .none) → w' = w) ∧
        ∃ q' values label, w'.model.parameter (.given p) = .ok q' ∧
          (q'.hasGenerative = true ∨ q'.info = .none) ∧
          q'.supports = (q.supports.addAll values label).2)
      fun w' => w'.model.Inv full ∧ w.Touches p w' := by
  have hrefl := refl_of (Touches p) w
  refine ends_addGenerative_of ⟨h, hrefl⟩ (fun q₀ hq₀ hdone => ?_)
    fun q₀ basis label derived hq₀ hflag hinfo hderived => ?_
  all_goals obtain rfl : q = q₀ := Except.ok.inj (hq.symm.trans hq₀)
  · exact ⟨h, hrefl, fun _ => rfl, q, [], .noLabel, hq, hdone, rfl⟩
  refine (((inv_add h derived (.given label) false).and
    (ends_add h.sound hq derived (.given label) false)).and
    ((moves_add p derived (.given label) false).ends w)).mono ?_ fun w' h' => ⟨h'.1.1, h'.2⟩
  rintro anyNew w₁ ⟨⟨hinv₁, -, -, -, -, l, rounded, q₁, hl, -, hq₁, hadded⟩, ht₁⟩
  cases hl
  have hsupports : q₁.supports = (q.supports.addAll rounded label).2 :=
    hadded.supports.resolve_right fun h => by rw [hflag] at h; cases h.1
  have hinfo₁ : q₁.info = .uniform basis label := by
    obtain ⟨q₂, hq₂, -, -, hi⟩ := ht₁.model.parameter hq
    rw [hq₁] at hq₂
    cases hq₂
    exact hi.trans hinfo
  -- derived supports lie between others
  have hne : q₁.supports.supports ≠ [] := by
    intro hnil
    have hsub := SupportMap.values_sublist_addAll q.supports rounded label
    rw [← hsupports, SupportMap.values, SupportMap.values, hnil] at hsub
    have hempty : q.supports.supports = [] := by simpa using hsub
    simp [hinfo, GenerativeInfo.makeSupports, SupportMap.baseValues, hempty] at hderived
  let g (q : Parameter α) : Parameter α := { q with hasGenerative := true }
  have hq₂ := Model.parameter_modifyParameter hq₁ g
  have ht₂ := Model.touches_modifyParameter w₁.model p g fun _ => ⟨rfl, rfl, rfl⟩
  obtain ⟨hscalar, hordered, -⟩ := hinv₁.sound.parameter p q₁ hq₁
  have hs₂ : (w₁.model.modifyParameter p g).Sound :=
    hinv₁.sound.alter ht₂.toAlters hq₁ hq₂
      ⟨hscalar, hordered, fun _ => ⟨basis, label, hinfo₁, hadded.storable, hne⟩⟩
      (.inl ⟨List.Subset.refl _, fun h => h, fun _ => rfl⟩)
  have hinv₂ : (w₁.model.modifyParameter p g).Inv full :=
    hinv₁.alter ht₂.toAlters hq₁ hs₂
      (fun _ _ hd => (Model.definedAt_iff hq₁).2 ((Model.definedAt_iff hq₂).1 hd)) fun _ _ _ _ =>
        ht₂.sameGrid hq₁ hq₂ rfl (fun _ => rfl) fun _ => rfl
  refine ⟨hinv₂, ht₁.modifyParameter fun _ => ⟨rfl, rfl, rfl⟩, fun h => ?_, g q₁, rounded, label,
    hq₂, .inl rfl, hsupports⟩
  rw [hflag, hinfo] at h
  rcases h with h | h <;> cases h

/-! ## Replacing the way supports are derived -/

omit [LawfulScalar α] in
theorem inv_resetEquations (h : w.model.Inv full) :
    Ends (resetEquations p) w (fun _ w' => w'.model.Inv full) fun w' => w'.model.Inv full := by
  cases hq : w.model.parameter (.given p) with
  | error e => simp [resetEquations, hq, h]
  | ok q =>
    refine (ends_resetEquations hq).mono ?_ fun _ hf => hf.elim
    rintro _ w' ⟨hcleared, hstale⟩
    refine h.alter hcleared.touches.model.toAlters hq (hcleared.sound h.sound hq)
      (fun _ _ => hcleared.defined hq) fun _ _ hr _ => ?_
    cases hflag : q.hasEquations with
    | true =>
      rw [hstale hflag] at hr
      cases hr
    | false =>
      rw [hcleared.kept hflag]
      exact .refl _

omit [LawfulScalar α] in
/-- Without derived supports in place, anything about a parameter but its supports can change if
the model becomes stale with it. -/
theorem inv_modifyInfo {m : Model α} (h : m.Inv full) (hq : m.parameter (.given p) = .ok q)
    (hgen : q.hasGenerative = false) (f : Parameter α → Parameter α)
    (hf : ∀ q, (f q).digits = q.digits ∧ (f q).domain = q.domain)
    (hkept : (f q).supports = q.supports ∧ (f q).hasGenerative = q.hasGenerative ∧
      (f q).hasEquations = q.hasEquations) :
    ((m.modifyParameter p f).markStaleIfUsed p).Inv full := by
  have hq' := Model.parameter_modifyParameter hq f
  obtain ⟨hsupports, hgenerative, hequations⟩ := hkept
  have ht := Model.alters_modifyParameter m p f hf
  -- only the flag for derived supports speaks of the field, and it is down
  have hs : (m.modifyParameter p f).Sound := by
    refine h.sound.alter ht hq hq' ?_
      (.inl ⟨by rw [hsupports]; exact List.Subset.refl _, by rw [hequations]; exact fun h => h,
        fun _ => rfl⟩)
    obtain ⟨hscalar, hordered, -⟩ := h.sound.parameter p q hq
    refine ⟨by rw [(hf q).2]; exact hscalar, by rw [hsupports]; exact hordered, fun hg => ?_⟩
    rw [hgenerative, hgen] at hg
    cases hg
  exact h.alter_of_unused (ht.trans (Model.touches_markStaleIfUsed _ p p).toAlters) hq
    (hs.markStaleIfUsed hq') ht.objects.unused_of_ready

/-- After taking derived supports away, a parameter has none. -/
theorem inv_withoutGenerative (h : w.model.Inv full) :
    Ends (resetGenerative p) w
      (fun _ w' => w'.model.Inv full ∧ ∃ q, w'.model.parameter (.given p) = .ok q ∧
        q.hasGenerative = false)
      fun w' => w'.model.Inv full := by
  cases hq : w.model.parameter (.given p) with
  | error e => simp [resetGenerative, hq, h]
  | ok q =>
    refine ((inv_resetGenerative h).and (ends_resetGenerative h.sound hq)).mono ?_ fun _ hf => hf.1
    rintro _ w' ⟨h', -, -, q', hq', hgen, -⟩
    exact ⟨h', q', hq', hgen⟩

theorem keepsInv_setInfo (p : Ref) (info : Argument (GenerativeInfo α)) :
    Moves (KeepsInv full) (setInfo p info) := by
  cases info with
  | mistyped value => exact .throw _
  | given info =>
    refine moves_of_inv fun w h => ?_
    simp only [setInfo, ends_bind, ends_query, ends_modifyModel]
    refine (inv_withoutGenerative h).mono ?_ fun _ h' => h'
    rintro _ w' ⟨h', q, hq, hgen⟩
    refine ⟨fun _ _ => ?_, fun _ _ => h'⟩
    let f (q : Parameter α) : Parameter α := { q with info }
    exact inv_modifyInfo h' hq hgen f (fun _ => ⟨rfl, rfl⟩) ⟨rfl, rfl, rfl⟩

theorem keepsInv_setMethod (p : Ref) (method : Argument DerivativeMethod) :
    Moves (KeepsInv full) (setMethod (α := α) p method) := by
  cases method with
  | mistyped value => exact .throw _
  | given method =>
    refine (moves_query _).bind fun _ =>
      (moves_of_inv fun w h => inv_resetEquations h).bind fun _ => moves_of_inv fun w h => ?_
    simp only [ends_bind, ends_modifyModel]
    refine (inv_withoutGenerative h).mono ?_ fun _ h' => h'
    rintro _ w' ⟨h', q, hq, hgen⟩
    let f (q : Parameter α) : Parameter α := { q with method, info := method.generativeInfo }
    exact inv_modifyInfo h' hq hgen f (fun _ => ⟨rfl, rfl⟩) ⟨rfl, rfl, rfl⟩

end Lawful

end Discretization.Store
