import Discretization.Evaluation
import Discretization.Proofs.Stores
import Mathlib.Data.List.TakeDrop

/-!
# Evaluations Keep the Invariant

The equations of a derivative refer to supports that are stored, so storing them keeps the objects
fitting together. A ready model has equations for each derivative, so evaluating changes nothing
there.

## Main definitions

* `Evaluation.Evaluates`: the second workspace has more stored equations at most.

## Main results

* `Evaluation.fitsOn_of_build`: built equations refer to the supports of the parameter;
* `Evaluation.keepsInv_evaluate`, `Evaluation.keepsInv_evaluateAll`: evaluating keeps the invariant;
* `Evaluation.ends_evaluateAll`: with derived supports in place, every derivative is evaluated.
-/

namespace Discretization

variable {α : Type} [Scalar α]

namespace Equation

variable {derivative variableRef : Ref} {values : List α}

theorem fitsOn_difference {at' lower upper : α} (hat : at' ∈ values) (hlower : lower ∈ values)
    (hupper : upper ∈ values) :
    (difference derivative variableRef at' lower upper).FitsOn derivative variableRef values := by
  intro term hterm
  simp only [difference, terms, List.mem_cons, List.not_mem_nil, or_false] at hterm
  rcases hterm with rfl | rfl | rfl
  · exact ⟨.inl rfl, hat⟩
  · exact ⟨.inr rfl, hupper⟩
  · exact ⟨.inr rfl, hlower⟩

/-- The equations of a stencil are differences between supports. -/
theorem exists_difference_of_mem {technique : Technique} {equations : List (Equation α)}
    (h : differences derivative variableRef values technique = .ok equations) {e : Equation α}
    (he : e ∈ equations) : ∃ at' ∈ values, ∃ lower ∈ values, ∃ upper ∈ values,
      e = difference derivative variableRef at' lower upper := by
  rw [differences] at h
  split at h
  · cases h
  cases h
  -- the lists that are zipped are the values, without the first or the first two
  have htail : ∀ {x : α}, x ∈ values.tail → x ∈ values := List.mem_of_mem_tail
  cases technique with
  | backward =>
    obtain ⟨⟨s, next⟩, hmem, rfl⟩ := List.mem_map.1 he
    obtain ⟨hs, hnext⟩ := List.of_mem_zip hmem
    exact ⟨next, htail hnext, s, hs, next, htail hnext, rfl⟩
  | forward =>
    obtain ⟨⟨s, next⟩, hmem, rfl⟩ := List.mem_map.1 he
    obtain ⟨hs, hnext⟩ := List.of_mem_zip hmem
    exact ⟨s, hs, s, hs, next, htail hnext, rfl⟩
  | central =>
    obtain ⟨⟨before, s, after⟩, hmem, rfl⟩ := List.mem_map.1 he
    obtain ⟨hbefore, hpair⟩ := List.of_mem_zip hmem
    obtain ⟨hs, hafter⟩ := List.of_mem_zip (List.mem_of_mem_tail hpair)
    exact ⟨s, hs, before, hbefore, after, htail hafter, rfl⟩

theorem fitsOn_differences {technique : Technique} {equations : List (Equation α)}
    (h : differences derivative variableRef values technique = .ok equations) :
    ∀ e ∈ equations, e.FitsOn derivative variableRef values := by
  intro e he
  obtain ⟨_, hat, _, hlower, _, hupper, rfl⟩ := exists_difference_of_mem h he
  exact fitsOn_difference hat hlower hupper

theorem fitsOn_element {nodes : List α} (h : nodes ⊆ values) :
    ∀ e ∈ element derivative variableRef nodes, e.FitsOn derivative variableRef values := by
  intro e he term hterm
  obtain ⟨⟨node, row⟩, hmem, rfl⟩ := List.mem_map.1 he
  obtain ⟨hnode, -⟩ := List.of_mem_zip (List.mem_of_mem_tail hmem)
  rcases List.mem_cons.1 hterm with rfl | hrest
  · exact ⟨.inl rfl, h hnode⟩
  · obtain ⟨⟨entry, other⟩, hentry, rfl⟩ := List.mem_map.1 hrest
    exact ⟨.inr rfl, h (List.of_mem_zip hentry).2⟩

omit [Scalar α] in
/-- Elements are cut out of the supports. -/
theorem elements_sublist (isBoundary : Support α → Bool) (supports : List (Support α)) :
    ∀ nodes ∈ elements isBoundary supports, nodes.Sublist (supports.map (·.value)) := by
  induction supports with
  | nil => simp [elements]
  | cons support rest ih =>
    have hrest : ∀ nodes ∈ elements isBoundary rest,
        nodes.Sublist ((support :: rest).map (·.value)) :=
      fun nodes hnodes => (ih nodes hnodes).cons _
    intro nodes hnodes
    rw [elements] at hnodes
    split at hnodes
    · split at hnodes
      · rename_i inner stop after hspan
        rcases List.mem_cons.1 hnodes with rfl | hnodes
        · -- the element runs from the support to the next boundary
          have hsplit : rest = inner ++ stop :: after := by
            rw [List.span_eq_takeWhile_dropWhile, Prod.mk.injEq] at hspan
            rw [← hspan.1, ← hspan.2, List.takeWhile_append_dropWhile]
          rw [hsplit, List.map_cons, List.map_append, List.map_cons]
          exact ((List.Sublist.refl _).append ((List.nil_sublist _).cons_cons _)).cons_cons _
        · exact hrest nodes hnodes
      · exact hrest nodes hnodes
    · exact hrest nodes hnodes

theorem fitsOn_collocation {supports : SupportMap α} {derived : Label} {name : String}
    {equations : List (Equation α)}
    (h : collocation derivative variableRef supports derived name = .ok equations) :
    ∀ e ∈ equations, e.FitsOn derivative variableRef supports.values := by
  rw [collocation] at h
  split at h
  · cases h
  cases h
  intro e he
  obtain ⟨nodes, hnodes, he⟩ := List.mem_flatMap.1 he
  exact fitsOn_element (elements_sublist _ _ nodes hnodes).subset e he

end Equation

namespace Model

variable {m : Model α} {d : Ref} {object : Derivative}

omit [Scalar α] in
/-- The equations of a live derivative are stored under its index, unless it has some already. -/
theorem equations?_storeEquations_derivative (hd : m.derivative d = .ok object)
    (equations : List (Equation α)) (i : Int) :
    (m.storeEquations d.index.toNat equations).equations? i =
      (m.equations? i).or (if i = d.index then some equations else none) := by
  obtain ⟨n, hn, -⟩ := Table.mem_rows_of_get? (derivative_eq_ok.1 hd).2.2
  rw [equations?_storeEquations, ← hn, Int.toNat_natCast]

omit [Scalar α] in
/-- Equations that are found after storing were there before, or are those of the derivative. -/
theorem equations?_storeEquations_cases (hd : m.derivative d = .ok object)
    {equations stored : List (Equation α)} {i : Int} {d' : Derivative}
    (hd' : m.derivatives.get? i = some d')
    (hi : (m.storeEquations d.index.toNat equations).equations? i = some stored) :
    m.equations? i = some stored ∨
      (⟨m.id, .derivative, i⟩ : Ref) = d ∧ d' = object ∧ stored = equations := by
  obtain ⟨hid, hkind, hfound⟩ := derivative_eq_ok.1 hd
  rw [equations?_storeEquations_derivative hd, Option.or_eq_some_iff] at hi
  rcases hi with hi | ⟨-, hi⟩
  · exact .inl hi
  · split at hi
    · rename_i hin
      cases hi
      subst hin
      rw [hfound] at hd'
      cases hd'
      exact .inr ⟨by rw [← hid, ← hkind], rfl, rfl⟩
    · cases hi

omit [Scalar α] in
/-- Storing the equations of a live derivative, with the flag, touches its parameter only. -/
theorem touches_storeEquations_derivative (hm : m.derivatives.WellFormed)
    (hd : m.derivative d = .ok object) (equations : List (Equation α)) :
    m.Touches object.parameter ((m.storeEquations d.index.toNat equations).modifyParameter
      object.parameter fun q => { q with hasEquations := true }) := by
  obtain ⟨-, -, hfound⟩ := derivative_eq_ok.1 hd
  obtain ⟨n, hn, -⟩ := Table.mem_rows_of_get? hfound
  have hindex : d.index.toNat = n := by omega
  rw [hindex]
  exact (touches_storeEquations (hn.symm ▸ (mem_derivativesOf hm hfound).2 rfl) equations).trans
    (touches_modifyParameter _ _ _ fun _ => ⟨rfl, rfl, rfl⟩)

end Model

namespace Evaluation

open Operation Workspace Store

variable {w w' w'' : Workspace α} {p d : Ref} {q : Parameter α} {full : Prop}

/-- Built equations refer to the supports of the parameter. -/
theorem fitsOn_of_build {variableRef : Ref} {equations : List (Equation α)}
    (h : build d variableRef q = .ok equations) :
    ∀ e ∈ equations, e.FitsOn d variableRef q.supports.values := by
  unfold build at h
  split at h
  · exact Equation.fitsOn_differences h
  · obtain ⟨label, -, h⟩ := Except.bind_eq_ok.1 h
    exact Equation.fitsOn_collocation h
  · cases h

/-- The second workspace has more stored equations at most; parameters may know of it. -/
structure Evaluates (w w' : Workspace α) : Prop where
  objects : w.model.SameObjects w'.model
  parameters : ∀ p q, w.model.parameter (.given p) = .ok q →
    ∃ stored, w'.model.parameter (.given p) = .ok { q with hasEquations := stored }
  equations : ∀ i equations, w.model.equations? i = some equations →
    w'.model.equations? i = some equations

omit [Scalar α] in
theorem Evaluates.refl (w : Workspace α) : Evaluates w w where
  objects := .refl w.model
  parameters _ q hq := ⟨q.hasEquations, hq⟩
  equations _ _ h := h

omit [Scalar α] in
theorem Evaluates.trans (h : Evaluates w w') (h' : Evaluates w' w'') : Evaluates w w'' where
  objects := h.objects.trans h'.objects
  parameters p q hq := by
    obtain ⟨stored, hq₁⟩ := h.parameters p q hq
    obtain ⟨stored', hq₂⟩ := h'.parameters p _ hq₁
    exact ⟨stored', hq₂⟩
  equations i equations hi := h'.equations i equations (h.equations i equations hi)

omit [Scalar α] in
theorem Evaluates.derived (h : Evaluates w w') (hd : w.model.Derived) : w'.model.Derived := by
  intro p q hq
  obtain ⟨q₀, hq₀⟩ := h.objects.symm.parameter hq
  obtain ⟨stored, hq₁⟩ := h.parameters p q₀ hq₀
  rw [hq] at hq₁
  cases hq₁
  exact hd p q₀ hq₀

/-- Storing built equations keeps the invariant of a model that is not ready. -/
theorem inv_storeEquations {m : Model α} {object : Derivative} {equations : List (Equation α)}
    (h : m.Inv full) (hd : m.derivative d = .ok object)
    (hq : m.parameter (.given object.parameter) = .ok q)
    (hb : build d object.ref q = .ok equations) (hstale : m.GridDefined → m.ready = false) :
    ((m.storeEquations d.index.toNat equations).modifyParameter object.parameter
      fun q => { q with hasEquations := true }).Inv full := by
  let f (q : Parameter α) : Parameter α := { q with hasEquations := true }
  have ht : m.Touches object.parameter
      ((m.storeEquations d.index.toNat equations).modifyParameter object.parameter f) :=
    Model.touches_storeEquations_derivative h.sound.derivatives hd equations
  have hq' := Model.parameter_modifyParameter
    (m := m.storeEquations d.index.toNat equations) hq f
  obtain ⟨hscalar, hordered, hderived⟩ := h.sound.parameter _ q hq
  have hs : ((m.storeEquations d.index.toNat equations).modifyParameter
      object.parameter f).Sound := by
    refine h.sound.alter_of_fits ht.toAlters hq hq' ⟨hscalar, hordered, hderived⟩
      fun i d' stored hd' hp hi => ⟨rfl, ?_⟩
    -- equations that are there stay; new ones are those of this derivative, and fit by construction
    rcases Model.equations?_storeEquations_cases hd hd' hi with hold | ⟨hderivative, rfl, rfl⟩
    · obtain ⟨q₁, hq₁, -, hfits⟩ := h.sound.equations i d' stored hd' hold
      rw [hp, hq] at hq₁
      cases hq₁
      exact hfits
    · rw [hderivative]
      exact fitsOn_of_build hb
  refine h.alter ht.toAlters hq hs
    (fun _ _ hd => (Model.definedAt_iff hq).2 ((Model.definedAt_iff hq').1 hd)) fun hm _ hr _ => ?_
  -- equations stored late could make a ready model wrong, and this one is not ready
  have hstale := hstale hm
  rw [ht.ready hr] at hstale
  cases hstale

omit [Scalar α] in
/-- Storing the equations of a derivative that has none changes nothing else. -/
theorem evaluates_storeEquations {n : Nat} (equations : List (Equation α)) (p : Ref) :
    Evaluates w { w with
      model := (w.model.storeEquations n equations).modifyParameter p
        fun q => { q with hasEquations := true } } where
  objects := (Model.sameObjects_storeEquations w.model n equations).trans
    (Model.sameObjects_modifyParameter _ p _)
  parameters p' q hq := by
    obtain ⟨hid, hk, hg⟩ := Model.parameter_eq_ok.1 hq
    by_cases hp : p'.index = p.index
    · exact ⟨true, Model.parameter_eq_ok.2 ⟨hid, hk, hp ▸ Table.get?_modify_self (hp ▸ hg) _⟩⟩
    · exact ⟨q.hasEquations, Model.parameter_eq_ok.2
        ⟨hid, hk, (Table.get?_modify_of_ne _ hp _).trans hg⟩⟩
  equations i stored hi := by
    have := Model.equations?_storeEquations (m := w.model) n equations i
    rw [hi, Option.some_or] at this
    exact this

/-- How an evaluation ends: equations that are stored already are given back. Otherwise, once the
derived supports are in place, equations are built from the supports of that moment and stored. -/
theorem ends_evaluate_of {d : Ref} {ok : List (Equation α) → Workspace α → Prop}
    {fail : Workspace α → Prop} (hfail : fail w)
    (hstored : ∀ equations, w.model.equations? d.index = some equations → ok equations w)
    (h : ∀ object, w.model.equations? d.index = none → w.model.derivative d = .ok object →
      Ends (addGenerative object.parameter) w
        (fun _ w₁ => fail w₁ ∧ ∀ q equations,
          w₁.model.parameter (.given object.parameter) = .ok q →
          build d object.ref q = .ok equations → ok equations { w₁ with
            model := (w₁.model.storeEquations d.index.toNat equations).modifyParameter
              object.parameter fun q => { q with hasEquations := true } }) fail) :
    Ends (evaluate d) w ok fail := by
  unfold evaluate
  rw [ends_bind, ends_query]
  refine ⟨fun d' hd' => ?_, fun _ _ => hfail⟩
  obtain ⟨hgiven, -⟩ := Model.ownedOf_eq_ok.1 hd'
  cases hgiven
  rw [ends_bind, ends_model]
  -- stored equations end the call
  cases hnone : w.model.equations? d.index with
  | some equations => exact (ends_pure _).2 (hstored equations hnone)
  | none =>
    dsimp only
    rw [ends_bind, ends_query]
    refine ⟨fun object hobject => ?_, fun _ _ => hfail⟩
    rw [ends_bind]
    refine (h object hnone hobject).mono (fun _ w₁ ⟨hfail₁, hbuilt⟩ => ?_) fun _ h => h
    rw [ends_bind, ends_query]
    refine ⟨fun q hq => ?_, fun _ _ => hfail₁⟩
    rw [ends_bind, ends_check]
    refine ⟨fun equations hbuild => ?_, fun _ _ => hfail₁⟩
    rw [ends_bind, ends_modifyModel, ends_pure]
    exact hbuilt q equations hq hbuild

section Lawful

variable [LawfulScalar α]

/-- An evaluation keeps the invariant and leaves a derivative alone that has equations already. With
derived supports in place, nothing changes but that equations are stored. -/
theorem ends_evaluate (h : w.model.Inv full) (d : Ref) :
    Ends (evaluate d) w
      (fun equations w' => w'.model.Inv full ∧
        ((w.model.equations? d.index).isSome = true → w' = w) ∧
        (w.model.Derived → Evaluates w w' ∧ w'.environment = w.environment ∧
          w'.model.equations? d.index = some equations))
      fun w' => w'.model.Inv full := by
  refine ends_evaluate_of h
    (fun equations hsome => ⟨h, fun _ => rfl, fun _ => ⟨.refl w, rfl, hsome⟩⟩)
    fun object hnone hobject => ?_
  cases hq : w.model.parameter (.given object.parameter) with
  | error e => simp [addGenerative, hq, h]
  | ok q =>
    refine (ends_addGenerative h hq).mono ?_ fun w' h' => h'.1
    rintro _ w₁ ⟨h₁, ht₁, hsame, q₁, values, label, hq₁, -, hsupports⟩
    refine ⟨h₁, fun q₂ equations hq₂ hb => ⟨?_, fun hsome => ?_, fun hderived => ?_⟩⟩
    all_goals obtain rfl : q₁ = q₂ := Except.ok.inj (hq₁.symm.trans hq₂)
    · refine inv_storeEquations h₁ (ht₁.model.objects.derivative.2 hobject) hq₁ hb fun hdef => ?_
      -- a ready model would have had equations for the derivative
      by_contra hr
      rw [Bool.not_eq_false] at hr
      have hdef₀ := ht₁.model.toAlters.gridDefined hq (fun _ hd => by
        rw [Model.definedAt_iff hq₁, hsupports] at hd
        exact (Model.definedAt_iff hq).2 fun x hx =>
          hd x ((SupportMap.values_sublist_addAll _ _ _).subset hx)) hdef
      obtain ⟨others, hothers⟩ := (h.ready hdef₀).evaluated (ht₁.model.ready hr)
        (Model.mem_liveRefs_derivative.2 ⟨object, hobject⟩)
      rw [hnone] at hothers
      cases hothers
    · rw [hnone] at hsome
      cases hsome
    · obtain rfl := hsame (hderived _ q hq)
      refine ⟨evaluates_storeEquations equations _, rfl, ?_⟩
      have hlook := Model.equations?_storeEquations_derivative hobject equations d.index
      rw [hnone, Option.none_or, if_pos rfl] at hlook
      exact hlook

theorem keepsInv_evaluate (d : Ref) : Moves (KeepsInv full) (evaluate (α := α) d) :=
  moves_of_inv fun _ h => (ends_evaluate h d).mono (fun _ _ h' => h'.1) fun _ h' => h'

theorem keepsInv_evaluateAll : Moves (KeepsInv full) (evaluateAll (α := α)) :=
  moves_model.bind fun _ =>
    Moves.bind (.forIn (fun d _ => (keepsInv_evaluate d).bind fun _ => .pure _) _) fun _ => .pure _

/-- With derived supports in place, every derivative gets equations and nothing else changes. -/
theorem ends_evaluateAll (h : w.model.Inv full) (hderived : w.model.Derived) :
    Ends evaluateAll w
      (fun _ w' => w'.model.Inv full ∧ Evaluates w w' ∧ w'.environment = w.environment ∧
        ∀ d ∈ w'.model.liveRefs .derivative,
          ∃ equations, w'.model.equations? d.index = some equations)
      fun w' => w'.model.Inv full := by
  unfold evaluateAll
  rw [ends_bind, ends_model, ends_bind]
  -- the derivatives that have had their turn have equations, and later turns keep these
  refine (Ends.forIn (fun (gone : List Ref) w' => w'.model.Inv full ∧ Evaluates w w' ∧
    w'.environment = w.environment ∧ ∀ d ∈ gone, ∃ equations,
      w'.model.equations? d.index = some equations) ⟨h, .refl w, rfl, nofun⟩ ?_).mono ?_
    fun _ h' => h'
  · rintro gone d rest w₁ - ⟨h₁, he₁, henv₁, hgone⟩
    rw [ends_bind]
    refine (ends_evaluate h₁ d).mono ?_ fun _ h' => h'
    rintro equations w₂ ⟨h₂, -, hd⟩
    obtain ⟨he₂, henv₂, hstored⟩ := hd (he₁.derived hderived)
    refine (ends_pure _).2 ⟨rfl, h₂, he₁.trans he₂, henv₂.trans henv₁, fun d' hd' => ?_⟩
    rcases List.mem_append.1 hd' with hd' | hd'
    · obtain ⟨others, hothers⟩ := hgone d' hd'
      exact ⟨others, he₂.equations _ _ hothers⟩
    · rw [List.mem_singleton.1 hd']
      exact ⟨equations, hstored⟩
  · rintro _ w' ⟨h', he, henv, hall⟩
    exact (ends_pure _).2 ⟨h', he, henv, fun d hd => hall d (by rwa [← he.objects.liveRefs])⟩

end Lawful

end Evaluation

end Discretization
