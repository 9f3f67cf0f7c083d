import Discretization.Proofs.Steps

/-!
# Stored Equations Evaluate at Different Values

No two equations of a derivative evaluate it at the same value. The supports of a parameter never
contain two equal values, in whatever order undefined ones leave them, and the values at which built
equations evaluate are supports, each taken once: those of a stencil move along with it, and those
of collocation leave out the first node of each element, which ends the element before.

## Main definitions

* `Separated`: no two values of a list are equal;
* `Model.Separated`: stored equations evaluate at separated values.

## Main results

* `Evaluation.heads_sublist_of_build`: built equations evaluate at supports, in their order;
* `Model.separated_of_requested`: stored equations are separated, whatever is asked for.
-/

namespace Discretization

variable {α : Type} [Scalar α]

/-! ## Stored values -/

/-- No two values of a list are equal. -/
def Separated (values : List α) : Prop :=
  values.Pairwise fun x y => (x == y) = false

namespace SupportMap

variable {m : SupportMap α}

/-- A value is only inserted where none equals it. -/
theorem separated_add [LawfulScalar α] (h : Separated m.values) (value : α) (label : Label) :
    Separated (m.add value label).2.values := by
  cases hc : m.contains value with
  | true => rwa [(add_of_contains label hc).2]
  | false =>
    have hnew : ∀ x ∈ m.values, (x == value) = false := fun x hx => by
      by_contra hne
      have hcontained := contains_iff.2 ⟨x, hx, by simpa using hne⟩
      rw [hc] at hcontained
      cases hcontained
    -- equality of numbers is symmetric
    have hnew' : ∀ x ∈ m.values, (value == x) = false := fun x hx => by
      by_contra hne
      have hequal := LawfulScalar.beq_symm (Bool.of_not_eq_false hne)
      rw [hnew x hx] at hequal
      cases hequal
    rw [add_of_not_contains label hc]
    have hle := positionAfter_le m.supports value
    have hsplit := List.take_append_drop (positionAfter m.supports value) m.supports
    -- where it is inserted makes no difference
    generalize positionAfter m.supports value = position at hle hsplit ⊢
    rw [values, insertIdx_eq _ _ hle, List.map_append, List.map_cons]
    rw [Separated, values, ← hsplit, List.map_append] at h
    rw [values, ← hsplit, List.map_append] at hnew hnew'
    obtain ⟨hbefore, hafter, hacross⟩ := List.pairwise_append.1 h
    refine List.pairwise_append.2 ⟨hbefore, List.pairwise_cons.2 ⟨fun y hy => ?_, hafter⟩, ?_⟩
    · exact hnew' y (List.mem_append_right _ hy)
    · intro x hx y hy
      rcases List.mem_cons.1 hy with rfl | hy
      · exact hnew x (List.mem_append_left _ hx)
      · exact hacross x hx y hy

theorem separated_addAll [LawfulScalar α] (h : Separated m.values) (values : List α)
    (label : Label) : Separated (m.addAll values label).2.values := by
  induction values generalizing m with
  | nil => exact h
  | cons value rest ih =>
    rw [addAll_cons]
    exact ih (separated_add h value label)

/-- Stripping labels keeps the order of values, also where it ends early. -/
theorem values_stripFrom_sublist (selectors : List Label) (kept rest : List (Support α)) :
    ((stripFrom selectors kept rest).1.map (·.value)).Sublist ((kept ++ rest).map (·.value)) := by
  induction rest generalizing kept with
  | nil => simp [stripFrom]
  | cons s rest ih =>
    rw [stripFrom]
    split
    · split
      · refine (ih kept).trans (List.Sublist.map _ ?_)
        exact (List.Sublist.refl kept).append (List.sublist_cons_self s rest)
      · exact .refl _
    · refine (ih _).trans ?_
      rw [List.append_assoc]
      simp

theorem values_strip_sublist (m : SupportMap α) (selectors : List Label) :
    (m.strip selectors).1.values.Sublist m.values :=
  values_stripFrom_sublist selectors [] m.supports

end SupportMap

namespace Parameter

variable {q q' : Parameter α}

theorem Step.separated [LawfulScalar α] (hs : q.Step q') (h : Separated q.supports.values) :
    Separated q'.supports.values := by
  cases hs with
  | note internal equations => exact h
  | add _ _ => exact SupportMap.separated_addAll h _ _
  | strip selectors => exact h.sublist (SupportMap.values_strip_sublist q.supports selectors)
  | clear => exact .nil
  | derive _ _ _ _ _ => exact SupportMap.separated_addAll h _ _
  | redefine method info _ => exact h

theorem New.separated (h : q.New) : Separated q.supports.values := by
  rw [h.supports]
  exact .nil

end Parameter

/-! ## Built equations -/

namespace Equation

variable {derivative variableRef : Ref} {equations : List (Equation α)}

/-- The values at which equations evaluate their derivative. -/
def heads (equations : List (Equation α)) : List α :=
  equations.map (·.head.value)

omit [Scalar α] in
theorem map_fst_zip_sublist {β : Type} (xs : List α) (ys : List β) :
    ((xs.zip ys).map Prod.fst).Sublist xs := by
  induction xs generalizing ys with
  | nil => exact .refl _
  | cons x xs ih =>
    cases ys with
    | nil => exact List.nil_sublist _
    | cons y ys => exact (ih ys).cons_cons x

/-- A stencil moves along the supports. -/
theorem heads_differences_sublist {values : List α} {technique : Technique}
    (h : differences derivative variableRef values technique = .ok equations) :
    (heads equations).Sublist values := by
  rw [differences] at h
  split at h
  · cases h
  cases h
  cases technique with
  | backward =>
    rw [heads, List.map_map]
    change ((values.zip values.tail).map Prod.snd).Sublist values
    rw [List.map_snd_zip (by simp)]
    exact List.tail_sublist values
  | forward =>
    rw [heads, List.map_map]
    exact map_fst_zip_sublist values values.tail
  | central =>
    rw [heads, List.map_map]
    -- the middle of three neighbours begins the pair with the one after it
    change ((values.zip (values.zip values.tail).tail).map (Prod.fst ∘ Prod.snd)).Sublist values
    rw [← List.map_map, List.map_snd_zip (by simp; omega)]
    exact ((List.tail_sublist _).map Prod.fst).trans (map_fst_zip_sublist values values.tail)

/-- The equations of an element evaluate at all its nodes but the first. -/
theorem heads_element (nodes : List α) :
    heads (element derivative variableRef nodes) = nodes.tail := by
  have hlength : (lagrangeMatrix nodes).length = nodes.length := by
    rw [lagrangeMatrix, List.length_mapIdx]
  rw [heads, element, List.map_map]
  change ((nodes.zip (lagrangeMatrix nodes)).tail).map Prod.fst = nodes.tail
  rw [List.map_tail, List.map_fst_zip hlength.ge]

/-- The equations of elements evaluate at all nodes that are not the first of an element. -/
theorem heads_elements (elements : List (List α)) :
    heads (elements.flatMap (element derivative variableRef)) = elements.flatMap List.tail := by
  rw [heads, List.map_flatMap]
  exact List.flatMap_congr fun nodes _ => heads_element nodes

omit [Scalar α] in
/-- Without their first nodes, elements follow each other: each begins where the one before ends. -/
theorem tails_elements_sublist (isBoundary : Support α → Bool) (supports : List (Support α)) :
    ((elements isBoundary supports).flatMap List.tail).Sublist
      ((supports.dropWhile fun s => !isBoundary s).map (·.value)).tail := by
  induction supports with
  | nil => exact .refl _
  | cons support rest ih =>
    rw [elements, List.dropWhile_cons]
    cases hb : isBoundary support with
    | false => simpa using ih
    | true =>
      simp only [if_true, Bool.not_true, Bool.false_eq_true, if_false, List.map_cons,
        List.tail_cons, List.span_eq_takeWhile_dropWhile]
      have hsplit := List.takeWhile_append_dropWhile (p := fun s => !isBoundary s) (l := rest)
      cases hdrop : rest.dropWhile fun s => !isBoundary s with
      | nil =>
        rw [hdrop] at ih
        exact ih.trans (List.nil_sublist _)
      | cons stop after =>
        rw [hdrop] at ih hsplit
        -- the first element ends where the rest of the elements begin
        have hrest : rest.map (·.value) =
            (rest.takeWhile fun s => !isBoundary s).map (·.value) ++
              stop.value :: after.map (·.value) := by
          rw [← List.map_cons, ← List.map_append, hsplit]
        rw [hrest, List.flatMap_cons, List.cons_append, List.tail_cons, List.append_assoc]
        exact (List.Sublist.refl _).append (ih.cons_cons _)

theorem heads_collocation_sublist {supports : SupportMap α} {derived : Label} {name : String}
    (h : collocation derivative variableRef supports derived name = .ok equations) :
    (heads equations).Sublist supports.values := by
  rw [collocation] at h
  split at h
  · cases h
  cases h
  rw [heads_elements]
  refine (tails_elements_sublist _ supports.supports).trans ((List.tail_sublist _).trans ?_)
  exact (List.dropWhile_sublist _).map _

end Equation

namespace Evaluation

/-- Built equations evaluate at supports of the parameter, in their order. -/
theorem heads_sublist_of_build {d variableRef : Ref} {q : Parameter α}
    {equations : List (Equation α)} (h : build d variableRef q = .ok equations) :
    (Equation.heads equations).Sublist q.supports.values := by
  unfold build at h
  split at h
  · exact Equation.heads_differences_sublist h
  · obtain ⟨label, -, h⟩ := Except.bind_eq_ok.1 h
    exact Equation.heads_collocation_sublist h
  · cases h

end Evaluation

/-! ## Stored equations -/

/-- Equations in store evaluate at separated values. -/
def Model.Separated (m : Model α) : Prop :=
  ∀ i equations, m.equations? i = some equations →
    Discretization.Separated (Equation.heads equations)

namespace Store

open Operation Workspace

variable {w w' : Workspace α} {p : Ref} {q : Parameter α}

/-- No equations are stored that were not stored before. -/
def Sheds (w w' : Workspace α) : Prop :=
  ∀ i equations, w'.model.equations? i = some equations → w.model.equations? i = some equations

omit [Scalar α] in
instance : IsPreorder (Workspace α) Sheds where
  refl _ _ _ h := h
  trans _ _ _ h h' i equations hi := h i equations (h' i equations hi)

omit [Scalar α] in
theorem Sheds.of_equations {m : Model α} (h : Sheds w w')
    (he : ∀ i, m.equations? i = w'.model.equations? i) : Sheds w { w' with model := m } :=
  fun i equations hi => h i equations (he i ▸ hi)

omit [Scalar α] in
theorem Sheds.modifyParameter (h : Sheds w w') (p : Ref) (f : Parameter α → Parameter α) :
    Sheds w { w' with model := w'.model.modifyParameter p f } :=
  h.of_equations fun _ => rfl

omit [Scalar α] in
theorem Sheds.markStaleIfUsed (h : Sheds w w') (p : Ref) :
    Sheds w { w' with model := w'.model.markStaleIfUsed p } :=
  h.of_equations (Model.equations?_markStaleIfUsed ·)

omit [Scalar α] in
/-- Equations of the parameter were dropped, and those of others are the same. -/
theorem Cleared.sheds (h : Cleared p q w w') : Sheds w w' := by
  intro i equations hi
  cases hflag : q.hasEquations with
  | false => rwa [h.kept hflag] at hi
  | true =>
    by_cases hderived : ∃ d ∈ w.model.derivativesOf p, d.index = i
    · obtain ⟨d, hd, rfl⟩ := hderived
      rw [← h.touches.model.derivativesOf] at hd
      rw [h.dropped hflag d hd] at hi
      cases hi
    · rwa [h.touches.model.equations i fun d hd hdi => hderived ⟨d, hd, hdi⟩] at hi

omit [Scalar α] in
theorem sheds_resetEquations (p : Ref) :
    Moves Sheds (resetEquations p : Operation α Unit) := by
  refine ⟨fun w => ?_⟩
  cases hq : w.model.parameter (.given p) with
  | error e => simp [resetEquations, hq, refl_of Sheds w]
  | ok q => exact (ends_resetEquations hq).mono (fun _ _ h => h.1.sheds) fun _ h => h.elim

theorem sheds_delete (p : Ref) (label : Label) :
    Moves Sheds (delete p label : Operation α Unit) := by
  refine ⟨fun w => ?_⟩
  by_cases hl : label = .all
  · subst hl
    exact ends_delete_all (refl_of Sheds w) fun q w₁ _ hw₁ =>
      (hw₁.sheds.modifyParameter p _).markStaleIfUsed p
  · refine ends_delete hl (fun _ _ => refl_of Sheds w) fun q w₁ _ hw₁ =>
      ⟨fun _ _ => hw₁.sheds, fun derived _ supports failed _ => ⟨fun _ => ?_, fun _ => ?_⟩⟩
    · exact hw₁.sheds.modifyParameter p _
    · exact ((hw₁.sheds.modifyParameter p _).modifyParameter p _).markStaleIfUsed p

theorem sheds_resetGenerative (p : Ref) :
    Moves Sheds (resetGenerative p : Operation α Unit) := by
  refine (moves_query _).bind fun parameter => ?_
  split
  · exact (moves_check _).bind fun derived => sheds_delete p derived
  · exact .pure _

theorem sheds_add (p : Ref) (values : List α) (label : Argument Label) (checked : Bool) :
    Moves Sheds (add p values label checked) := by
  refine ⟨fun w => ends_add_of (refl_of Sheds w) fun q l rounded _ _ _ _ _ => ?_⟩
  have added := (refl_of Sheds w).modifyParameter p fun q₁ =>
    { q₁ with
      supports := (q.supports.addAll rounded l).2, hasInternal := q₁.hasInternal || l.internal }
  refine ⟨fun _ => added, fun _ w₂ hcleared => ?_⟩
  have cleared := trans_of Sheds added hcleared.sheds
  exact ((sheds_resetGenerative p).ends w₂).mono
    (fun _ _ h => (trans_of Sheds cleared h).markStaleIfUsed p)
    fun _ h => trans_of Sheds cleared h

theorem sheds_set (p : Ref) (values : List α) (label : Argument Label) (force : Bool) :
    Moves Sheds (set p values label force) := by
  refine ⟨fun w => ends_set_of (refl_of Sheds w) fun q l rounded _ _ _ _ w₂ hcleared => ?_⟩
  have replaced := (refl_of Sheds w).modifyParameter p fun q =>
    { q with supports := (SupportMap.empty.addAll rounded l).2 }
  exact ((trans_of Sheds replaced hcleared.sheds).modifyParameter p _).markStaleIfUsed p

theorem sheds_addGenerative (p : Ref) : Moves Sheds (addGenerative (α := α) p) := by
  refine ⟨fun w => ends_addGenerative_of (refl_of Sheds w) (fun _ _ _ => refl_of Sheds w)
    fun q basis label derived _ _ _ _ => ?_⟩
  exact ((sheds_add p derived (.given label) false).ends w).mono
    (fun _ _ h => h.modifyParameter p _) fun _ h => h

theorem sheds_setInfo (p : Ref) (info : Argument (GenerativeInfo α)) :
    Moves Sheds (setInfo p info) := by
  cases info with
  | mistyped value => exact .throw _
  | given info =>
    refine ⟨fun w => ?_⟩
    simp only [setInfo, ends_bind, ends_query, ends_modifyModel]
    refine ((sheds_resetGenerative p).ends w).mono (fun _ w₁ h₁ => ?_) fun _ h => h
    exact ⟨fun q _ => (h₁.modifyParameter p _).markStaleIfUsed p, fun _ _ => h₁⟩

theorem sheds_setMethod (p : Ref) (method : Argument DerivativeMethod) :
    Moves Sheds (setMethod (α := α) p method) := by
  cases method with
  | mistyped value => exact .throw _
  | given method =>
    refine ⟨fun w => ?_⟩
    simp only [setMethod, ends_bind, ends_query, ends_modifyModel]
    refine ⟨fun q _ => ?_, fun _ _ => refl_of Sheds w⟩
    refine ((sheds_resetEquations p).ends w).mono (fun _ w₁ h₁ => ?_) fun _ h => h
    refine ((sheds_resetGenerative p).ends w₁).mono (fun _ w₂ h₂ => ?_) fun _ h =>
      trans_of Sheds h₁ h
    exact ((trans_of Sheds h₁ h₂).modifyParameter p _).markStaleIfUsed p

end Store

/-- Parameters go by steps, and with separated values in all parameters, equations in store stay
separated. -/
structure Workspace.Separates (w w' : Workspace α) : Prop where
  develops : w.Develops w'
  equations : (∀ p q, w.model.parameter (.given p) = .ok q → Separated q.supports.values) →
    w.model.Separated → w'.model.Separated

section Separates

open Operation Workspace Store Evaluation

variable [LawfulScalar α] {w w' : Workspace α}

/-- Parameters whose values are separated stay so. -/
theorem Workspace.Develops.separated (h : w.Develops w')
    (hs : ∀ p q, w.model.parameter (.given p) = .ok q → Separated q.supports.values) :
    ∀ p q, w'.model.parameter (.given p) = .ok q → Separated q.supports.values :=
  h.keeps (fun _ hnew => hnew.separated) (fun _ _ hq hstep => hstep.separated hq) hs

instance : IsPreorder (Workspace α) Separates where
  refl w := ⟨refl_of _ w, fun _ h => h⟩
  trans _ _ _ h h' := ⟨trans_of _ h.develops h'.develops, fun hs hm =>
    h'.equations (h.develops.separated hs) (h.equations hs hm)⟩

omit [LawfulScalar α] in
theorem Store.Sheds.separated (h : Sheds w w') (hm : w.model.Separated) : w'.model.Separated :=
  fun i equations hi => hm i equations (h i equations hi)

omit [LawfulScalar α] in
theorem moves_separates {β : Type} {op : Operation α β} (hd : Moves Develops op)
    (hr : Moves Sheds op) : Moves Separates op :=
  ⟨fun w => ((hd.ends w).and (hr.ends w)).mono
    (fun _ _ h => ⟨h.1, fun _ => h.2.separated⟩) fun _ h => ⟨h.1, fun _ => h.2.separated⟩⟩

/-- Equations are built from the supports of the moment, whose values are separated. -/
theorem Evaluation.separates_evaluate (d : Ref) : Moves Separates (evaluate (α := α) d) := by
  refine ⟨fun w => ?_⟩
  -- nothing is claimed where values or stored heads were not separated before
  by_cases h : (∀ p q, w.model.parameter (.given p) = .ok q → Separated q.supports.values) ∧
      w.model.Separated
  · obtain ⟨hs, hm⟩ := h
    have hends : Ends (evaluate d) w (fun _ w' => w'.model.Separated)
        fun w' => w'.model.Separated := by
      refine ends_evaluate_of hm (fun _ _ => hm) fun object _ _ => ?_
      refine (((develops_addGenerative object.parameter).ends w).and
        ((sheds_addGenerative object.parameter).ends w)).mono ?_ fun _ h' => h'.2.separated hm
      rintro _ w₁ ⟨hdevelops, hsheds⟩
      have hm₁ := hsheds.separated hm
      refine ⟨hm₁, fun q equations hq hbuild i stored hi => ?_⟩
      have hi : (w₁.model.storeEquations d.index.toNat equations).equations? i = some stored := hi
      rw [Model.equations?_storeEquations, Option.or_eq_some_iff] at hi
      -- the equations that were stored, or the new ones
      rcases hi with hi | ⟨-, hi⟩
      · exact hm₁ i stored hi
      · split at hi
        · cases hi
          exact (hdevelops.separated hs _ q hq).sublist (heads_sublist_of_build hbuild)
        · cases hi
    exact (((develops_evaluate d).ends w).and hends).mono
      (fun _ _ h' => ⟨h'.1, fun _ _ => h'.2⟩) fun _ h' => ⟨h'.1, fun _ _ => h'.2⟩
  · exact ((develops_evaluate d).ends w).mono (fun _ _ h' => ⟨h', fun hs hm => absurd ⟨hs, hm⟩ h⟩)
      fun _ h' => ⟨h', fun hs hm => absurd ⟨hs, hm⟩ h⟩

omit [Scalar α] [LawfulScalar α] in
/-- Edits of the model store no equations. -/
theorem Model.Edits.sheds [Scalar α] {m m' : Model α} (h : m.Edits m') (i : Int)
    (equations : List (Equation α)) (hi : m'.equations? i = some equations) :
    m.equations? i = some equations := by
  cases h with
  | addDerivative ha =>
    obtain ⟨v, variableName, parameters, q, -, -, -, -, rfl⟩ := Model.exists_of_addDerivative ha
    exact hi
  | deleteDerivative hd =>
    obtain ⟨ref, d, _, q, -, -, rfl, -, rfl⟩ := Model.exists_of_deleteDerivative hd
    have hdrop : (m.dropEquations ref.index).equations? i = some equations := by
      split at hi <;> exact hi
    rw [Model.equations?_dropEquations] at hdrop
    split at hdrop
    · cases hdrop
    · exact hdrop
  | other _ _ _ he => rwa [Model.equations?, he] at hi

/-- Parameters go by steps and equations stay separated, whatever is asked for. -/
theorem governs_separates : Governs (Separates (α := α)) where
  push _ _ hnew := ⟨.push hnew, fun _ hm => hm⟩
  edit _ _ h := ⟨.of_edits h, fun _ hm i equations hi => hm i equations (h.sheds i equations hi)⟩
  set p values label force := moves_separates (develops_set p values label force)
    (sheds_set p values label force)
  add p values label checked := moves_separates (develops_add p values label checked)
    (sheds_add p values label checked)
  delete p label := moves_separates (develops_delete p label) (sheds_delete p label)
  addGenerative p := moves_separates (develops_addGenerative p) (sheds_addGenerative p)
  setMethod p method := moves_separates (develops_setMethod p method) (sheds_setMethod p method)
  evaluate := separates_evaluate

/-- Whatever is asked for, equations in store evaluate at separated values. -/
theorem Model.separated_of_requested {m : Model α} (h : Requested m) : m.Separated := by
  induction h with
  | start id name => exact nofun
  | @step m h e request ih =>
    obtain ⟨w', hw', hseparates⟩ := Request.moves_perform (governs_separates.operation request
      fun p info _ => moves_separates (develops_setInfo p info) (sheds_setInfo p info)) ⟨e, m⟩
    rw [← hw']
    exact hseparates.equations (h.parameter_induction (fun _ hnew => hnew.separated)
      fun _ _ hq hstep => hstep.separated hq) ih

end Separates

end Discretization
