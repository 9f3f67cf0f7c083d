import Discretization.Proofs.Objects
import Discretization.Proofs.Runs

/-!
# Changes around One Parameter

What is done to the supports of a parameter touches the parameter itself and the stored equations of
the derivatives with respect to it, and can make the model stale. `Model.Alters` says that nothing
else changes.

## Main definitions

* `Model.Alters`: the second model differs from the first around one parameter at most;
* `Model.Touches`: besides, the supports of the parameter are derived as before;
* `Workspace.Touches`: besides, the rules of the environment are the same.

## Main results

* `Model.touches_modifyParameter`, `Model.touches_dropEquationsOf` and so on: the basic changes
  touch one parameter;
* `Model.equations?_dropEquationsOf`: which stored equations are left.
-/

namespace Discretization

variable {α : Type}

namespace Model

variable {m m' m'' : Model α} {p : Ref}

/-! ## Basic changes -/

theorem parameter_modifyParameter {q : Parameter α} (h : m.parameter (.given p) = .ok q)
    (f : Parameter α → Parameter α) :
    (m.modifyParameter p f).parameter (.given p) = .ok (f q) := by
  obtain ⟨hid, hk, hg⟩ := parameter_eq_ok.1 h
  exact parameter_eq_ok.2 ⟨hid, hk, Table.get?_modify_self hg f⟩

theorem parameter_dropEquationsOf {q : Parameter α} (h : m.parameter (.given p) = .ok q) :
    (m.dropEquationsOf p).parameter (.given p) = .ok { q with hasEquations := false } := by
  obtain ⟨hid, hk, hg⟩ := parameter_eq_ok.1 h
  rw [dropEquationsOf_eq]
  exact parameter_eq_ok.2 ⟨hid, hk, Table.get?_modify_self hg _⟩

@[simp]
theorem parameter_markStaleIfUsed (h : Handle) :
    (m.markStaleIfUsed p).parameter h = m.parameter h := by
  rw [markStaleIfUsed]
  split <;> rfl

@[simp]
theorem ready_markStale : m.markStale.ready = false := rfl

theorem ready_markStaleIfUsed :
    (m.markStaleIfUsed p).ready = true ↔ m.ready = true ∧ m.isUsed p = false := by
  rw [markStaleIfUsed]
  split <;> simp_all

/-- A model that is ready after a change of a parameter had nothing that depends on it before. -/
theorem SameObjects.unused_of_ready (h : SameObjects m m')
    (hr : (m'.markStaleIfUsed p).ready = true) : m.isUsed p = false := by
  rw [← h.isUsed]
  exact (ready_markStaleIfUsed.1 hr).2

@[simp]
theorem equations?_markStaleIfUsed (i : Int) :
    (m.markStaleIfUsed p).equations? i = m.equations? i := by
  rw [markStaleIfUsed]
  split <;> rfl

/-- The equations of a derivative are dropped just if it is one with respect to the parameter. -/
theorem equations?_dropEquationsOf (i : Int) :
    (m.dropEquationsOf p).equations? i =
      if ∃ d ∈ m.derivativesOf p, d.index = i then none else m.equations? i := by
  rw [dropEquationsOf_eq, equations?, equations?]
  simp only [List.find?_filter]
  split
  · -- a derivative by `p`: none of its rows passes the filter
    rename_i h
    obtain ⟨d, hd, rfl⟩ := h
    rw [Option.map_eq_none_iff, List.find?_eq_none]
    intro row _ hrow
    simp only [decide_eq_true_eq, Bool.not_eq_true', List.any_eq_false] at hrow
    exact hrow.1 d hd hrow.2
  · -- any other: the filter keeps each row with its index
    rename_i h
    congr 2
    funext row
    by_cases hi : (row.1 : Int) = i
    · simp only [hi, decide_true, Bool.not_eq_true', decide_eq_true_eq, List.any_eq_false]
      exact ⟨fun d hd hi => h ⟨d, hd, hi.symm⟩, trivial⟩
    · simp [hi]

theorem equations?_dropEquations (j i : Int) :
    (m.dropEquations j).equations? i = if i = j then none else m.equations? i := by
  rw [dropEquations, equations?, equations?]
  simp only [List.find?_filter]
  split
  · rename_i h
    rw [Option.map_eq_none_iff, List.find?_eq_none]
    intro row _ hrow
    simp_all
  · rename_i h
    congr 2
    funext row
    by_cases hi : (row.1 : Int) = i
    · simp [hi, h]
    · simp [hi]

/-- The equations of one derivative are stored, unless it has some already. -/
theorem equations?_storeEquations (n : Nat) (equations : List (Equation α)) (i : Int) :
    (m.storeEquations n equations).equations? i =
      (m.equations? i).or (if i = n then some equations else none) := by
  rw [storeEquations, equations?, equations?, List.find?_append]
  cases m.equations.find? fun row => (row.1 : Int) = i with
  | some row => rfl
  | none =>
    by_cases hi : i = n
    · simp [hi]
    · simp [hi, Ne.symm hi]

/-! ## Touching one parameter -/

/-- The second model comes from the first by changes around one parameter: the parameter keeps its
digits and its domain, and of the stored equations only those of derivatives with respect to it
change. -/
structure Alters (p : Ref) (m m' : Model α) : Prop where
  objects : SameObjects m m'
  transcription : m'.transcription = m.transcription
  /-- A model that is stale stays stale. -/
  ready : m'.ready = true → m.ready = true
  others : ∀ i, i ≠ p.index → m'.parameters.get? i = m.parameters.get? i
  kept : ∀ q, m.parameters.get? p.index = some q → ∃ q', m'.parameters.get? p.index = some q' ∧
    q'.digits = q.digits ∧ q'.domain = q.domain
  equations : ∀ i, (∀ d ∈ m.derivativesOf p, d.index ≠ i) → m'.equations? i = m.equations? i

/-- Besides, the parameter keeps the way its supports are derived. -/
structure Touches (p : Ref) (m m' : Model α) : Prop extends Alters p m m' where
  info : ∀ q q', m.parameters.get? p.index = some q → m'.parameters.get? p.index = some q' →
    q'.info = q.info

namespace Alters

theorem refl (m : Model α) : Alters p m m where
  objects := .refl m
  transcription := rfl
  ready h := h
  others _ _ := rfl
  kept q hq := ⟨q, hq, rfl, rfl⟩
  equations _ _ := rfl

theorem derivativesOf (h : Alters p m m') (p' : Ref) :
    m'.derivativesOf p' = m.derivativesOf p' := by
  simp only [Model.derivativesOf, ref, h.objects.derivatives, h.objects.id]

theorem trans (h : Alters p m m') (h' : Alters p m' m'') : Alters p m m'' where
  objects := h.objects.trans h'.objects
  transcription := h'.transcription.trans h.transcription
  ready hr := h.ready (h'.ready hr)
  others i hi := (h'.others i hi).trans (h.others i hi)
  kept q hq := by
    obtain ⟨q₁, hq₁, hd₁, hdom₁⟩ := h.kept q hq
    obtain ⟨q₂, hq₂, hd₂, hdom₂⟩ := h'.kept q₁ hq₁
    exact ⟨q₂, hq₂, hd₂.trans hd₁, hdom₂.trans hdom₁⟩
  equations i hi :=
    (h'.equations i (by rwa [h.derivativesOf])).trans (h.equations i hi)

/-- Another parameter stays as it is. -/
theorem parameter_of_ne (h : Alters p m m') {p' : Ref} (hp : p'.index ≠ p.index)
    {q : Parameter α} : m'.parameter (.given p') = .ok q ↔ m.parameter (.given p') = .ok q := by
  rw [parameter_eq_ok, parameter_eq_ok, h.objects.id, h.others _ hp]

/-- The parameter keeps its digits and its domain, as do all others. -/
theorem parameter (h : Alters p m m') {p' : Ref} {q : Parameter α}
    (hq : m.parameter (.given p') = .ok q) : ∃ q', m'.parameter (.given p') = .ok q' ∧
      q'.digits = q.digits ∧ q'.domain = q.domain := by
  by_cases hp : p'.index = p.index
  · obtain ⟨hid, hk, hg⟩ := parameter_eq_ok.1 hq
    obtain ⟨q', hq', hrest⟩ := h.kept q (hp ▸ hg)
    exact ⟨q', parameter_eq_ok.2 ⟨hid.trans h.objects.id.symm, hk, hp ▸ hq'⟩, hrest⟩
  · exact ⟨q, (h.parameter_of_ne hp).2 hq, rfl, rfl⟩

end Alters

namespace Touches

theorem refl (m : Model α) : Touches p m m where
  toAlters := .refl m
  info q q' hq hq' := by rw [hq] at hq'; cases hq'; rfl

theorem trans (h : Touches p m m') (h' : Touches p m' m'') : Touches p m m'' where
  toAlters := h.toAlters.trans h'.toAlters
  info q q₂ hq hq₂ := by
    obtain ⟨q₁, hq₁, -⟩ := h.kept q hq
    exact (h'.info q₁ q₂ hq₁ hq₂).trans (h.info q q₁ hq hq₁)

/-- The parameter keeps its digits, its domain and the way its supports are derived, as do all
others. -/
theorem parameter (h : Touches p m m') {p' : Ref} {q : Parameter α}
    (hq : m.parameter (.given p') = .ok q) : ∃ q', m'.parameter (.given p') = .ok q' ∧
      q'.digits = q.digits ∧ q'.domain = q.domain ∧ q'.info = q.info := by
  obtain ⟨q', hq', hd, hdom⟩ := h.toAlters.parameter hq
  refine ⟨q', hq', hd, hdom, ?_⟩
  obtain ⟨-, -, hg⟩ := parameter_eq_ok.1 hq
  obtain ⟨-, -, hg'⟩ := parameter_eq_ok.1 hq'
  by_cases hp : p'.index = p.index
  · exact h.info q q' (hp ▸ hg) (hp ▸ hg')
  · rw [h.others _ hp, hg] at hg'
    cases hg'
    rfl

end Touches

theorem alters_modifyParameter (m : Model α) (p : Ref) (f : Parameter α → Parameter α)
    (hf : ∀ q, (f q).digits = q.digits ∧ (f q).domain = q.domain) :
    Alters p m (m.modifyParameter p f) where
  objects := sameObjects_modifyParameter m p f
  transcription := rfl
  ready h := h
  others _ hi := Table.get?_modify_of_ne _ hi f
  kept q hq := ⟨f q, Table.get?_modify_self hq f, hf q⟩
  equations _ _ := rfl

theorem touches_modifyParameter (m : Model α) (p : Ref) (f : Parameter α → Parameter α)
    (hf : ∀ q, (f q).digits = q.digits ∧ (f q).domain = q.domain ∧ (f q).info = q.info) :
    Touches p m (m.modifyParameter p f) where
  toAlters := alters_modifyParameter m p f fun q => ⟨(hf q).1, (hf q).2.1⟩
  info q q' hq hq' := by
    rw [modifyParameter, Table.get?_modify_self hq] at hq'
    cases hq'
    exact (hf q).2.2

theorem touches_dropEquationsOf (m : Model α) (p : Ref) : Touches p m (m.dropEquationsOf p) where
  objects := by
    rw [dropEquationsOf_eq]
    exact ⟨rfl, rfl, rfl, rfl, rfl, rfl, rfl, rfl, Table.indices_modify _ _ _, rfl⟩
  transcription := by rw [dropEquationsOf_eq]
  ready hr := by rwa [dropEquationsOf_eq] at hr
  others i hi := by
    rw [dropEquationsOf_eq]
    exact Table.get?_modify_of_ne _ hi _
  kept q hq := by
    rw [dropEquationsOf_eq]
    exact ⟨_, Table.get?_modify_self hq _, rfl, rfl⟩
  equations i hi := by
    rw [equations?_dropEquationsOf, if_neg]
    rintro ⟨d, hd, h⟩
    exact hi d hd h
  info q q' hq hq' := by
    rw [dropEquationsOf_eq, Table.get?_modify_self hq] at hq'
    cases hq'
    rfl

theorem touches_storeEquations {n : Nat} (h : ∃ d ∈ m.derivativesOf p, d.index = n)
    (equations : List (Equation α)) : Touches p m (m.storeEquations n equations) where
  objects := sameObjects_storeEquations m n equations
  transcription := rfl
  ready h := h
  others _ _ := rfl
  kept q hq := ⟨q, hq, rfl, rfl⟩
  equations i hi := by
    obtain ⟨d, hd, hn⟩ := h
    rw [equations?_storeEquations, if_neg, Option.or_none]
    rintro rfl
    exact hi d hd hn
  info q q' hq hq' := by
    rw [show (m.storeEquations n equations).parameters = m.parameters from rfl, hq] at hq'
    cases hq'
    rfl

theorem alters_markStale (m : Model α) (p : Ref) : Alters p m m.markStale where
  objects := sameObjects_markStale m
  transcription := rfl
  ready h := by cases h
  others _ _ := rfl
  kept q hq := ⟨q, hq, rfl, rfl⟩
  equations _ _ := rfl

theorem touches_markStale (m : Model α) (p : Ref) : Touches p m m.markStale where
  toAlters := alters_markStale m p
  info q q' hq hq' := by
    rw [show m.markStale.parameters = m.parameters from rfl, hq] at hq'
    cases hq'
    rfl

theorem touches_markStaleIfUsed (m : Model α) (p p' : Ref) :
    Touches p m (m.markStaleIfUsed p') := by
  rw [markStaleIfUsed]
  split
  · exact touches_markStale m p
  · exact .refl m

end Model

namespace Workspace

/-- The second workspace comes from the first by changes around one parameter, and the settings and
generators of its environment are the same. -/
structure Touches (p : Ref) (w w' : Workspace α) : Prop where
  model : w.model.Touches p w'.model
  settings : w'.environment.settings = w.environment.settings
  generators : w'.environment.generators = w.environment.generators

instance (p : Ref) : IsPreorder (Workspace α) (Touches p) where
  refl w := ⟨.refl w.model, rfl, rfl⟩
  trans _ _ _ h h' := ⟨h.model.trans h'.model, h'.settings.trans h.settings,
    h'.generators.trans h.generators⟩

/-- One more change of the parameter. -/
theorem Touches.modifyParameter {p : Ref} {w w' : Workspace α} {f : Parameter α → Parameter α}
    (h : w.Touches p w')
    (hf : ∀ q, (f q).digits = q.digits ∧ (f q).domain = q.domain ∧ (f q).info = q.info) :
    w.Touches p { w' with model := w'.model.modifyParameter p f } :=
  ⟨h.model.trans (Model.touches_modifyParameter _ p f hf), h.settings, h.generators⟩

theorem Touches.markStaleIfUsed {p : Ref} {w w' : Workspace α} (h : w.Touches p w') (p' : Ref) :
    w.Touches p { w' with model := w'.model.markStaleIfUsed p' } :=
  ⟨h.model.trans (Model.touches_markStaleIfUsed _ p p'), h.settings, h.generators⟩

end Workspace

/-- Changing the model around a parameter touches the workspace there. -/
theorem Operation.moves_modifyModel {p : Ref} {f : Model α → Model α}
    (h : ∀ m : Model α, m.Touches p (f m)) :
    Moves (Workspace.Touches p) (modifyModel f : Operation α Unit) :=
  ⟨fun w => (Operation.ends_modifyModel f).2 ⟨h w.model, rfl, rfl⟩⟩

theorem Operation.moves_warn (p : Ref) (warning : Warning) :
    Moves (Workspace.Touches p) (warn warning : Operation α Unit) :=
  ⟨fun w => (Operation.ends_warn warning).2 ⟨.refl w.model, rfl, rfl⟩⟩

end Discretization
