import Discretization.Proofs.Representations
import Mathlib.Data.List.TakeWhile

/-!
# Equations of Relabelled Supports

A stored support can gain a label without its equations being built again. Finite differences do not
look at labels. Elements of collocation end at the supports that carry some label besides the one of
derived supports, so they are the same as long as no derived support gains another label. A support
that does gain one shows: it carries two labels without being the end of an element.

## Main definitions

* `Parameter.Relabels`: the second parameter has the supports of the first, with more labels;
* `Parameter.Steady`: labels gained since some equations were built cannot have moved the end of an
  element.

## Main results

* `Evaluation.build_of_relabels`: equations that were built before labels were gained are built
  again where the parameter is steady;
* `Evaluation.steady_of_build`: it is, for the equations that were just built.
-/

namespace Discretization

variable {α : Type} [Scalar α]

/-! ## Supports with more labels -/

omit [Scalar α] in
/-- The labels of a support are those it had, which are some, and perhaps more. -/
structure Support.Relabels (s₀ s : Support α) : Prop where
  value : s.value = s₀.value
  labelled : s₀.Labelled
  labels : s₀.labels ⊆ s.labels

/-- The second parameter has the supports of the first under the labels that they had there and
perhaps more. -/
structure Parameter.Relabels (q₀ q : Parameter α) : Prop where
  method : q.method = q₀.method
  info : q.info = q₀.info
  supports : List.Forall₂ Support.Relabels q₀.supports.supports q.supports.supports

namespace Equation

/-- The first and the last node of the element of an equation. -/
def ends (e : Equation α) : List α :=
  (e.rest.head?.toList ++ e.rest.getLast?.toList).map (·.value)

end Equation

/-- Labels gained since some equations were built cannot have moved the end of an element: there are
no elements, or each support that carries the label of derived supports beside another ends one of
theirs. Undefined supports may be stored twice, so elements do not tell them apart. -/
def Parameter.Steady (q : Parameter α) (equations : List (Equation α)) : Prop :=
  (∃ technique, q.method = .finiteDifference technique) ∨
    (∀ x ∈ q.supports.values, Scalar.Defined x) ∧ ∀ label, q.info.label = .ok label →
      ∀ s ∈ q.supports.supports, label ∈ s.labels →
        s.labels = [label] ∨ ∃ e ∈ equations, s.value ∈ e.ends

omit [Scalar α] in
/-- A label that a support carries alone is the only one that it had before. -/
theorem Support.Relabels.single {s₀ s : Support α} {label : Label} (h : s₀.Relabels s)
    (hs : s.labels = [label]) : s₀.labels = [label] := by
  obtain ⟨first, rest, hcons⟩ := List.exists_cons_of_ne_nil h.labelled.nonempty
  have hsub : ∀ l ∈ first :: rest, l = label := fun l hl =>
    List.mem_singleton.1 (hs ▸ h.labels (hcons ▸ hl))
  have hnodup := hcons ▸ h.labelled.nodup
  rw [hcons, hsub first List.mem_cons_self]
  cases rest with
  | nil => rfl
  | cons second rest =>
    -- two labels would both be the one that is left
    rw [hsub first List.mem_cons_self, hsub second (by simp)] at hnodup
    simp at hnodup

/-! ## Elements -/

/-- A row of the differentiation matrix has an entry for each node. -/
theorem length_of_mem_lagrangeMatrix {nodes row : List α} (h : row ∈ lagrangeMatrix nodes) :
    row.length = nodes.length := by
  obtain ⟨j, hj, rfl⟩ := List.mem_mapIdx.1 h
  simp [barycentricWeights, nodeDifferences]

namespace Equation

variable {β : Type} {R : Support α → Support α → Prop} {supports₀ supports : List (Support α)}
  {isBoundary₀ isBoundary : Support α → Bool}

omit [Scalar α] in
/-- Where a run of supports ends depends on the boundaries only. -/
theorem forall₂_span {f g : Support α → Bool} (h : List.Forall₂ R supports₀ supports)
    (hp : ∀ s₀ s, R s₀ s → g s = f s₀) :
    List.Forall₂ R (supports₀.span f).1 (supports.span g).1 ∧
      List.Forall₂ R (supports₀.span f).2 (supports.span g).2 := by
  simp only [List.span_eq_takeWhile_dropWhile]
  induction h with
  | nil => exact ⟨.nil, .nil⟩
  | @cons s₀ s rest₀ rest hs hrest ih =>
    rw [List.takeWhile_cons, List.takeWhile_cons, List.dropWhile_cons, List.dropWhile_cons,
      hp s₀ s hs]
    split
    · exact ⟨.cons hs ih.1, ih.2⟩
    · exact ⟨.nil, .cons hs hrest⟩

omit [Scalar α] in
theorem map_value_congr (h : List.Forall₂ R supports₀ supports)
    (hvalue : ∀ s₀ s, R s₀ s → s.value = s₀.value) :
    supports.map (·.value) = supports₀.map (·.value) := by
  induction h with
  | nil => rfl
  | cons hs _ ih => rw [List.map_cons, List.map_cons, hvalue _ _ hs, ih]

omit [Scalar α] in
theorem length_boundaries_congr (h : List.Forall₂ R supports₀ supports)
    (hboundary : ∀ s₀ s, R s₀ s → isBoundary s = isBoundary₀ s₀) :
    (supports.filter isBoundary).length = (supports₀.filter isBoundary₀).length := by
  induction h with
  | nil => rfl
  | cons hs _ ih =>
    rw [List.filter_cons, List.filter_cons, hboundary _ _ hs]
    split
    · exact congrArg (· + 1) ih
    · exact ih

omit [Scalar α] in
/-- Elements depend on the values of supports and on which of them are boundaries. -/
theorem elements_congr (h : List.Forall₂ R supports₀ supports)
    (hvalue : ∀ s₀ s, R s₀ s → s.value = s₀.value)
    (hboundary : ∀ s₀ s, R s₀ s → isBoundary s = isBoundary₀ s₀) :
    elements isBoundary supports = elements isBoundary₀ supports₀ := by
  induction h with
  | nil => rfl
  | @cons s₀ s rest₀ rest hs hrest ih =>
    obtain ⟨hinner, hafter⟩ := forall₂_span hrest (f := fun s => !isBoundary₀ s)
      (g := fun s => !isBoundary s) fun s₀ s hs => by rw [hboundary s₀ s hs]
    rw [elements, elements, hboundary s₀ s hs, ih]
    split
    · -- the nodes up to the next boundary, and whether there is one
      rcases hspan₀ : rest₀.span fun s => !isBoundary₀ s with ⟨inner₀, after₀⟩
      rcases hspan : rest.span fun s => !isBoundary s with ⟨inner, after⟩
      rw [hspan₀, hspan] at hinner hafter
      cases hafter with
      | nil => rfl
      | cons hstop _ => simp only [hvalue _ _ hs, hvalue _ _ hstop, map_value_congr hinner hvalue]
    · rfl

omit [Scalar α] in
/-- A run of supports stops at a boundary. -/
theorem boundary_of_dropWhile {stop : Support α} {after : List (Support α)}
    (h : supports.dropWhile (fun s => !isBoundary s) = stop :: after) :
    stop ∈ supports ∧ isBoundary stop = true := by
  refine ⟨(List.dropWhile_suffix _).subset (h ▸ List.mem_cons_self), ?_⟩
  have hhead := List.head?_dropWhile_not (fun s => !isBoundary s) supports
  rw [h] at hhead
  simpa using hhead

omit [Scalar α] in
/-- An element runs from a boundary to a boundary. -/
theorem boundaries_of_mem_elements {nodes : List α} (h : nodes ∈ elements isBoundary supports)
    {x : α} (hx : nodes.head? = some x ∨ nodes.getLast? = some x) :
    ∃ s ∈ supports, isBoundary s = true ∧ s.value = x := by
  induction supports with
  | nil => cases h
  | cons support rest ih =>
    have hrest : nodes ∈ elements isBoundary rest →
        ∃ s ∈ support :: rest, isBoundary s = true ∧ s.value = x := fun h =>
      (ih h).imp fun s hs => ⟨List.mem_cons_of_mem _ hs.1, hs.2⟩
    rw [elements] at h
    split at h
    · rename_i hfirst
      split at h
      · rename_i inner stop after hspan
        -- the first element begins at the head and ends at the stop, the others come from the rest
        rcases List.mem_cons.1 h with rfl | h
        · rw [List.span_eq_takeWhile_dropWhile, Prod.mk.injEq] at hspan
          obtain ⟨hmem, hstop⟩ := boundary_of_dropWhile hspan.2
          rcases hx with hx | hx
          · exact ⟨support, List.mem_cons_self, hfirst, by simpa using hx⟩
          · rw [List.getLast?_append_cons, List.getLast?_singleton, Option.some.injEq] at hx
            exact ⟨stop, List.mem_cons_of_mem _ hmem, hstop, hx⟩
        · exact hrest h
      · exact hrest h
    · exact hrest h

omit [Scalar α] in
/-- Where there are two boundaries, each of them is the end of an element. -/
theorem exists_element_of_boundary {s : Support α} (hs : s ∈ supports) (hb : isBoundary s = true)
    (htwo : 2 ≤ (supports.filter isBoundary).length) :
    ∃ nodes ∈ elements isBoundary supports, 2 ≤ nodes.length ∧
      (nodes.head? = some s.value ∨ nodes.getLast? = some s.value) := by
  induction supports with
  | nil => cases hs
  | cons support rest ih =>
    rw [elements]
    by_cases hfirst : isBoundary support = true
    · rw [List.filter_cons_of_pos hfirst, List.length_cons] at htwo
      rw [if_pos hfirst]
      -- a boundary is left, so the run behind the first one stops at it
      obtain ⟨stop, after, hstop⟩ : ∃ stop after,
          rest.dropWhile (fun s => !isBoundary s) = stop :: after := by
        obtain ⟨s', hs'⟩ := List.exists_mem_of_length_pos
          (by omega : 0 < (rest.filter isBoundary).length)
        obtain ⟨hmem, hs'⟩ := List.mem_filter.1 hs'
        refine List.exists_cons_of_ne_nil fun hnil => ?_
        simpa [hs'] using List.dropWhile_eq_nil_iff.1 hnil s' hmem
      rw [List.span_eq_takeWhile_dropWhile, hstop]
      dsimp only
      obtain ⟨hmem, hboundary⟩ := boundary_of_dropWhile hstop
      rcases List.mem_cons.1 hs with rfl | hs
      · exact ⟨_, List.mem_cons_self, by simp, .inl rfl⟩
      · by_cases hmore : 2 ≤ (rest.filter isBoundary).length
        · obtain ⟨nodes, hnodes, hends⟩ := ih hs hmore
          exact ⟨nodes, List.mem_cons_of_mem _ hnodes, hends⟩
        · -- one boundary is left, so it is where the first element stops
          obtain ⟨only, honly⟩ := List.length_eq_one_iff.1
            (by omega : (rest.filter isBoundary).length = 1)
          have hone : ∀ s' ∈ rest, isBoundary s' = true → s' = only := fun s' hs' hb' =>
            List.mem_singleton.1 (honly ▸ List.mem_filter.2 ⟨hs', hb'⟩)
          rw [hone s hs hb, ← hone stop hmem hboundary]
          exact ⟨_, List.mem_cons_self, by simp, .inr (List.getLast?_concat)⟩
    · rw [List.filter_cons_of_neg hfirst] at htwo
      rw [if_neg hfirst]
      refine ih ((List.mem_cons.1 hs).resolve_left ?_) htwo
      rintro rfl
      exact hfirst hb

omit [Scalar α] in
theorem mem_ends {e : Equation α} {x : α} : x ∈ e.ends ↔
    (e.rest.map (·.value)).head? = some x ∨ (e.rest.map (·.value)).getLast? = some x := by
  simp [ends]

/-- Each equation of an element tells where it begins and where it ends. -/
theorem mem_ends_of_mem_element {derivative variableRef : Ref} {nodes : List α} {e : Equation α}
    (h : e ∈ element derivative variableRef nodes) {x : α} :
    x ∈ e.ends ↔ nodes.head? = some x ∨ nodes.getLast? = some x := by
  obtain ⟨⟨node, row⟩, hmem, rfl⟩ := List.mem_map.1 h
  obtain ⟨-, hrow⟩ := List.of_mem_zip (List.mem_of_mem_tail hmem)
  have hvalues : (row.zip nodes).map Prod.snd = nodes :=
    List.map_snd_zip (length_of_mem_lagrangeMatrix hrow).ge
  rw [mem_ends, List.map_map]
  change ((row.zip nodes).map Prod.snd).head? = some x ∨
    ((row.zip nodes).map Prod.snd).getLast? = some x ↔ _
  rw [hvalues]

/-- An element has an equation for each node but the first. -/
theorem exists_mem_element (derivative variableRef : Ref) {nodes : List α} (h : 2 ≤ nodes.length) :
    ∃ e, e ∈ element derivative variableRef nodes := by
  refine List.exists_mem_of_length_pos ?_
  simp only [element, lagrangeMatrix, List.length_map, List.length_tail, List.length_zip,
    List.length_mapIdx]
  omega

end Equation

/-- The ends of elements do not move where the supports that carry the label of derived supports
beside another were ends before. -/
theorem Parameter.Relabels.boundary_iff {q₀ q : Parameter α} (h : q₀.Relabels q)
    (hnodup : q.supports.values.Nodup) {d variableRef : Ref} {label : Label} {name : String}
    {equations : List (Equation α)}
    (hb : Equation.collocation d variableRef q₀.supports label name = .ok equations)
    (hends : ∀ s ∈ q.supports.supports, label ∈ s.labels →
      s.labels = [label] ∨ ∃ e ∈ equations, s.value ∈ e.ends) :
    List.Forall₂ (fun s₀ s => s.value = s₀.value ∧ (s.labels != [label]) = (s₀.labels != [label]))
      q₀.supports.supports q.supports.supports := by
  -- each pair is of a support stored when the equations were built and one stored now
  have hmem := (forall₂_and_right (forall₂_and_right h.supports fun _ => id).flip fun _ => id).flip
  refine hmem.imp fun s₀ s ⟨⟨hs, hq⟩, hq₀⟩ => ⟨hs.value, ?_⟩
  suffices hone : s.labels = [label] ↔ s₀.labels = [label] from
    Bool.eq_iff_iff.2 (by simp [hone])
  refine ⟨hs.single, fun hone => ?_⟩
  refine (hends s hq (hs.labels (hone ▸ List.mem_singleton_self label))).resolve_right ?_
  -- an end was a boundary when the equations were built, with a label besides this one
  rintro ⟨e, he, hend⟩
  unfold Equation.collocation at hb
  dsimp only at hb
  split at hb
  · cases hb
  cases hb
  obtain ⟨nodes, hnodes, he⟩ := List.mem_flatMap.1 he
  obtain ⟨s', hs', hboundary, hvalue⟩ :=
    Equation.boundaries_of_mem_elements hnodes ((Equation.mem_ends_of_mem_element he).1 hend)
  -- a boundary at the same value is the same support
  rw [SupportMap.values, Equation.map_value_congr h.supports fun _ _ hs => hs.value] at hnodup
  obtain rfl := List.inj_on_of_nodup_map hnodup hs' hq₀ (hvalue.trans hs.value)
  simp [hone] at hboundary

/-- Equations that were built before labels were gained are built again where the parameter is
steady. -/
theorem Evaluation.build_of_relabels [LawfulScalar α] {d variableRef : Ref} {q₀ q : Parameter α}
    (h : q₀.Relabels q)
    (hordered : (∀ x ∈ q.supports.values, Scalar.Defined x) → Increasing q.supports.values)
    {equations : List (Equation α)} (hsteady : q.Steady equations)
    (hb : build d variableRef q₀ = .ok equations) : build d variableRef q = .ok equations := by
  unfold build at hb ⊢
  rw [← h.method] at hb
  -- finite differences read values only, collocation also reads which of them are boundaries
  split at hb <;> rename_i hmethod
  · rw [SupportMap.values, Equation.map_value_congr h.supports fun _ _ hs => hs.value]
    exact hb
  · rw [← h.info] at hb
    obtain ⟨label, hlabel, hb⟩ := Except.bind_eq_ok.1 hb
    refine Except.bind_eq_ok.2 ⟨label, hlabel, ?_⟩
    obtain ⟨hdef, hends⟩ := hsteady.resolve_left
      (by rintro ⟨_, hfd⟩; rw [hmethod] at hfd; cases hfd)
    have hboundary := h.boundary_iff (hordered hdef).nodup hb (hends label hlabel)
    unfold Equation.collocation at hb ⊢
    dsimp only at hb ⊢
    rw [Equation.length_boundaries_congr hboundary fun _ _ hs => hs.2,
      Equation.elements_congr hboundary (fun _ _ hs => hs.1) fun _ _ hs => hs.2]
    split at hb
    · cases hb
    · rwa [if_neg ‹_›]
  · cases hb

/-- A parameter is steady for the equations that are built from it. -/
theorem Evaluation.steady_of_build {d variableRef : Ref} {q : Parameter α}
    (hdef : ∀ x ∈ q.supports.values, Scalar.Defined x) {equations : List (Equation α)}
    (hb : build d variableRef q = .ok equations) : q.Steady equations := by
  unfold build at hb
  split at hb <;> rename_i hmethod
  · exact .inl ⟨_, hmethod⟩
  · refine .inr ⟨hdef, fun label hlabel s hs _ => ?_⟩
    obtain ⟨label', hlabel', hb⟩ := Except.bind_eq_ok.1 hb
    obtain rfl : label' = label := Except.ok.inj (hlabel'.symm.trans hlabel)
    unfold Equation.collocation at hb
    dsimp only at hb
    split at hb
    · cases hb
    rename_i htwo
    cases hb
    -- a support with another label is a boundary, and as there are two, it ends an element
    refine (em (s.labels = [label'])).imp_right fun hmany => ?_
    obtain ⟨nodes, hnodes, hlength, hends⟩ :=
      Equation.exists_element_of_boundary hs (by simpa using hmany) (Nat.le_of_not_lt htwo)
    obtain ⟨e, he⟩ := Equation.exists_mem_element d variableRef hlength
    exact ⟨e, List.mem_flatMap.2 ⟨nodes, hnodes, he⟩, (Equation.mem_ends_of_mem_element he).2 hends⟩
  · cases hb

end Discretization
