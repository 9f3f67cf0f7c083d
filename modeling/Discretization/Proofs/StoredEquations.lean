import Discretization.Proofs.Operations

/-!
# Stored Equations and the Parameters They Are About

Equations of a derivative are built from the supports of its parameter. What holds between the two,
for instance that the equations mention stored supports, is at stake only where the parameter
changes or its equations do. This is said once here for an arbitrary relation.

## Main definitions

* `Model.Relates`: a relation holds between the stored equations and their parameters.

## Main results

* `Model.Relates.alter`: a change around one parameter is safe if the relation holds there;
* `Model.Relates.storeEquations`: so is storing equations for which it holds;
* `Model.Relates.edit`: edits of the model are always safe.
-/

namespace Discretization

variable {α : Type}

/-- All stored equations are those of live derivatives, and they are in a relation with the
parameters that these are with respect to. -/
structure Model.Relates (P : Parameter α → Ref → Ref → List (Equation α) → Prop)
    (m : Model α) : Prop where
  derivatives : m.derivatives.WellFormed
  stored : ∀ i equations, m.equations? i = some equations → ∃ d q,
    m.derivatives.get? i = some d ∧ m.parameter (.given d.parameter) = .ok q ∧
      P q ⟨m.id, .derivative, i⟩ d.ref equations

namespace Model.Relates

variable {P : Parameter α → Ref → Ref → List (Equation α) → Prop} {m m' : Model α} {p : Ref}
  {q q' : Parameter α}

theorem holds (h : m.Relates P) {i : Int} {d : Derivative} {equations : List (Equation α)}
    (hd : m.derivatives.get? i = some d) (hq : m.parameter (.given d.parameter) = .ok q)
    (hi : m.equations? i = some equations) : P q ⟨m.id, .derivative, i⟩ d.ref equations := by
  obtain ⟨d', q', hd', hq', hP⟩ := h.stored i equations hi
  rw [hd] at hd'
  cases hd'
  rw [hq] at hq'
  cases hq'
  exact hP

/-- Nothing is stored about a parameter that is in the relation with no equations at all. -/
theorem unevaluated (h : m.Relates P) (hq : m.parameter (.given p) = .ok q)
    (hP : ∀ derivative variableRef equations, ¬ P q derivative variableRef equations) :
    m.Unevaluated p := by
  intro ref href
  obtain ⟨⟨n, d⟩, hmem, rfl⟩ := List.mem_map.1 href
  obtain ⟨hmem, hp⟩ := List.mem_filter.1 hmem
  have hp : d.parameter = p := of_decide_eq_true hp
  by_contra hstored
  obtain ⟨equations, he⟩ := Option.ne_none_iff_exists'.1 hstored
  exact hP _ _ _ (h.holds (Table.get?_of_mem_rows h.derivatives hmem) (hp ▸ hq) he)

/-- After a change around one parameter the relation has to hold of what is stored about it. -/
theorem alter (h : m.Relates P) (ht : m.Alters p m') (hq : m.parameter (.given p) = .ok q)
    (hq' : m'.parameter (.given p) = .ok q')
    (hP : ∀ i d equations, m.derivatives.get? i = some d → d.parameter = p →
      m'.equations? i = some equations → P q' ⟨m.id, .derivative, i⟩ d.ref equations) :
    m'.Relates P where
  derivatives := by rw [ht.objects.derivatives]; exact h.derivatives
  stored i equations hi := by
    rw [ht.objects.derivatives, ht.objects.id]
    by_cases hderived : ∃ d ∈ m.derivativesOf p, d.index = i
    · obtain ⟨_, hmem, rfl⟩ := hderived
      obtain ⟨⟨n, d⟩, hrow, rfl⟩ := List.mem_map.1 hmem
      obtain ⟨hrow, hp⟩ := List.mem_filter.1 hrow
      have hd := Table.get?_of_mem_rows h.derivatives hrow
      have hp : d.parameter = p := of_decide_eq_true hp
      exact ⟨d, q', hd, hp ▸ hq', hP n d equations hd hp hi⟩
    · -- the equations and the supports of another parameter are untouched
      rw [ht.equations i fun d hd hdi => hderived ⟨d, hd, hdi⟩] at hi
      obtain ⟨d, q₁, hd, hq₁, h₁⟩ := h.stored i equations hi
      have hp : d.parameter ≠ p := fun hp =>
        hderived ((mem_derivativesOf h.derivatives hd).2 hp)
      exact ⟨d, q₁, hd, (ht.parameter_of_ne (index_ne hq hq₁ hp)).2 hq₁, h₁⟩

/-- A parameter about which nothing is stored can change in any way. -/
theorem alter_of_unevaluated (h : m.Relates P) (ht : m.Alters p m')
    (hq : m.parameter (.given p) = .ok q) (hu : m'.Unevaluated p) : m'.Relates P := by
  obtain ⟨q', hq', -⟩ := ht.parameter hq
  refine h.alter ht hq hq' fun i d equations hd hp hi => ?_
  obtain ⟨d', hd', rfl⟩ := (mem_derivativesOf h.derivatives hd).2 hp
  rw [hu d' (by rwa [ht.derivativesOf])] at hi
  cases hi

/-- A parameter can change beside the same equations if it stays in the relation with these. -/
theorem alter_of_imp (h : m.Relates P) (ht : m.Alters p m')
    (hq : m.parameter (.given p) = .ok q) (hq' : m'.parameter (.given p) = .ok q')
    (he : ∀ i, m'.equations? i = m.equations? i)
    (hP : ∀ derivative variableRef equations, P q derivative variableRef equations →
      P q' derivative variableRef equations) : m'.Relates P := by
  refine h.alter ht hq hq' fun i d equations hd hp hi => ?_
  rw [he] at hi
  exact hP _ _ _ (h.holds hd (hp ▸ hq) hi)

/-- Equations are stored for a derivative that may have some, which then stay. Both have to be in
the relation with the parameter once its flag is set. -/
theorem storeEquations (h : m.Relates P) {d : Ref} {object : Derivative}
    {equations : List (Equation α)} (hd : m.derivative d = .ok object)
    (hq : m.parameter (.given object.parameter) = .ok q)
    (hold : ∀ derivative variableRef equations, P q derivative variableRef equations →
      P { q with hasEquations := true } derivative variableRef equations)
    (hnew : P { q with hasEquations := true } d object.ref equations) :
    ((m.storeEquations d.index.toNat equations).modifyParameter object.parameter
      fun q => { q with hasEquations := true }).Relates P := by
  refine h.alter (touches_storeEquations_derivative h.derivatives hd equations).toAlters hq
    (parameter_modifyParameter (m := m.storeEquations d.index.toNat equations) hq _)
    fun i d' stored hd' hp hi => ?_
  rcases equations?_storeEquations_cases hd hd' hi with hi | ⟨hderivative, rfl, rfl⟩
  · exact hold _ _ _ (h.holds hd' (hp ▸ hq) hi)
  · rw [hderivative]
    exact hnew

theorem markStale (h : m.Relates P) : m.markStale.Relates P := ⟨h.derivatives, h.stored⟩

/-- Without a derivative and its equations, other equations are about the same parameters. -/
theorem eraseDerivative (h : m.Relates P) (i : Int) :
    Model.Relates P { m.dropEquations i with derivatives := m.derivatives.erase i } := by
  refine ⟨h.derivatives.erase i, fun j equations hj => ?_⟩
  have hj : (m.dropEquations i).equations? j = some equations := hj
  rw [equations?_dropEquations] at hj
  split at hj
  · cases hj
  · rename_i hne
    obtain ⟨d, q, hd, hq, hP⟩ := h.stored j equations hj
    exact ⟨d, q, by rw [Table.get?_erase, if_neg hne, hd], hq, hP⟩

/-- A new parameter is at the end of the table. -/
theorem pushParameter (h : m.Relates P) (q : Parameter α) :
    (m.pushParameter q).2.Relates P := by
  refine ⟨h.derivatives, fun i equations hi => ?_⟩
  obtain ⟨d, q₁, hd, hq₁, hP⟩ := h.stored i equations hi
  obtain ⟨hid, hkind, hget⟩ := parameter_eq_ok.1 hq₁
  exact ⟨d, q₁, hd, parameter_eq_ok.2 ⟨hid, hkind, Table.get?_push_of_some hget q⟩, hP⟩

/-- Edits of the model leave the stored equations of other derivatives alone. -/
theorem edit [Scalar α] (h : m.Relates P) (he : m.Edits m') : m'.Relates P := by
  cases he with
  | addDerivative ha =>
    obtain ⟨v, variableName, parameters, q, -, -, -, -, rfl⟩ := exists_of_addDerivative ha
    refine .markStale ⟨h.derivatives.push _, fun i equations hi => ?_⟩
    obtain ⟨d, q, hd, hq, hP⟩ := h.stored i equations hi
    exact ⟨d, q, Table.get?_push_of_some hd _, hq, hP⟩
  | deleteDerivative hd =>
    obtain ⟨ref, d, _, q, -, -, rfl, hq, rfl⟩ := exists_of_deleteDerivative hd
    have h' := h.eraseDerivative ref.index
    split
    · exact h'.markStale
    · rename_i hnone
      let kept : Model α :=
        { m.dropEquations ref.index with derivatives := m.derivatives.erase ref.index }
      let f (q : Parameter α) : Parameter α := { q with hasEquations := false }
      -- the flag is reset only where no derivative of the parameter is left with equations
      have hu : kept.Unevaluated d.parameter := fun r hr => by
        by_contra hstored
        exact hnone (List.any_eq_true.2 ⟨r, hr, Option.isSome_iff_ne_none.2 hstored⟩)
      exact (h'.alter_of_unevaluated (alters_modifyParameter kept d.parameter f fun _ => ⟨rfl, rfl⟩)
        hq (hu.of_objects (sameObjects_modifyParameter kept d.parameter f) fun _ => rfl)).markStale
  | other hid hp hd he =>
    refine ⟨by rw [hd]; exact h.derivatives, fun i equations hi => ?_⟩
    rw [equations?, he] at hi
    obtain ⟨d, q, hd', hq, hP⟩ := h.stored i equations hi
    refine ⟨d, q, by rwa [hd], ?_, by rwa [hid]⟩
    rw [parameter_eq_ok] at hq ⊢
    rwa [hid, hp]

end Model.Relates

end Discretization
