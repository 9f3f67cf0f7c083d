import Discretization.Proofs.Integrity
import Discretization.Proofs.Selections
import Discretization.Proofs.Separations
import Mathlib.Data.List.TakeWhile

/-!
# Evaluation Equations Cover the Supports

Evaluating a derivative gives one equation for each support at which it has to be known, no more and
no less. A stencil that looks back leaves the first support out, one that looks ahead the last, and
one around its support leaves out both. Elements of collocation follow each other from the first
boundary to the last, and each one leaves its first node to the element before. Supports before the
first boundary and after the last one are not covered.

An equation speaks of the derivative at the one support that it covers, and of the variable at
supports that are neighbours of this one, or lie in the same element.

## Main definitions

* `Parameter.Boundary`: supports between which the elements lie;
* `Parameter.Stencil`: the supports around another one at which the variable is taken;
* `Evaluation.Covers`: equations cover the supports of a parameter.

## Main results

* `Equation.mem_tails_elements_iff`: what elements cover;
* `Evaluation.covers_of_build`: equations that are built cover the supports;
* `Evaluation.covers_of_evaluate`: so do those that an evaluation gives, at every model that comes
  about by requests.
-/

namespace Discretization

variable {α : Type} [Scalar α]

/-! ## Neighbours in a list -/

omit [Scalar α] in
/-- A value that is paired with the next one stands before it. -/
theorem infix_of_mem_zip_tail {values : List α} {x y : α} (h : (x, y) ∈ values.zip values.tail) :
    [x, y] <:+: values := by
  induction values with
  | nil => cases h
  | cons s rest ih =>
    cases rest with
    | nil => cases h
    | cons next rest =>
      rw [List.tail_cons, List.zip_cons_cons, List.mem_cons, Prod.mk.injEq] at h
      rcases h with ⟨rfl, rfl⟩ | h
      · exact ⟨[], rest, rfl⟩
      · exact (ih h).trans (List.infix_cons_iff.2 (.inr (List.infix_refl _)))

omit [Scalar α] in
/-- A value that is paired with the next pair stands before it. -/
theorem infix_of_mem_zip_pairs {values : List α} {x y z : α}
    (h : (x, y, z) ∈ values.zip (values.zip values.tail).tail) : [x, y, z] <:+: values := by
  induction values with
  | nil => cases h
  | cons s rest ih =>
    cases rest with
    | nil => cases h
    | cons next rest =>
      cases rest with
      | nil => cases h
      | cons last rest =>
        simp only [List.tail_cons, List.zip_cons_cons, List.mem_cons, Prod.mk.injEq] at h
        rcases h with ⟨rfl, rfl, rfl⟩ | h
        · exact ⟨[], rest, rfl⟩
        · refine (ih ?_).trans (List.infix_cons_iff.2 (.inr (List.infix_refl _)))
          simpa using h

namespace Increasing

variable {values : List α} {x y : α}

theorem exists_head_lt (h : Increasing values) (hx : x ∈ values.tail) :
    ∃ b ∈ values.head?, b < x := by
  cases values with
  | nil => cases hx
  | cons first rest => exact ⟨first, rfl, List.rel_of_pairwise_cons h.pairwise hx⟩

theorem exists_le_getLast [LawfulScalar α] (h : Increasing values) (hx : x ∈ values) :
    ∃ b ∈ values.getLast?, x ≤ b := by
  have hne := List.ne_nil_of_mem hx
  refine ⟨values.getLast hne, List.getLast?_eq_some_getLast hne, LawfulScalar.le_iff.2 ?_⟩
  have hsplit := List.dropLast_append_getLast hne
  rw [← hsplit, List.mem_append, List.mem_singleton] at hx
  rcases hx with hx | hx
  · have hpairs := List.pairwise_append.1 (hsplit.symm ▸ h.pairwise)
    exact .inl (hpairs.2.2 x hx _ (List.mem_singleton_self _))
  · exact .inr (hx ▸ h.defined x (hx ▸ List.getLast_mem hne))

theorem mem_tail_of_lt [LawfulScalar α] (h : Increasing values) (hx : x ∈ values) (hy : y ∈ values)
    (hlt : y < x) : x ∈ values.tail := by
  cases values with
  | nil => cases hx
  | cons first rest =>
    rcases List.mem_cons.1 hx with rfl | hx
    · rcases List.mem_cons.1 hy with rfl | hy
      · exact absurd hlt (Scalar.not_lt_self _)
      · have hback := List.rel_of_pairwise_cons h.pairwise hy
        exact absurd (LawfulScalar.lt_trans hlt hback) (Scalar.not_lt_self _)
    · exact hx

end Increasing

/-! ## Elements -/

namespace Equation

variable {isBoundary : Support α → Bool} {supports : List (Support α)}

omit [Scalar α] in
/-- A support begins an element just if it is a boundary and another one follows. -/
theorem elements_cons_cases (isBoundary : Support α → Bool) (s : Support α)
    (rest : List (Support α)) :
    (elements isBoundary (s :: rest) = elements isBoundary rest ∧
      (isBoundary s = true → ∀ b ∈ rest, isBoundary b = false)) ∨
    ∃ inner upper after, rest = inner ++ upper :: after ∧ isBoundary s = true ∧
      isBoundary upper = true ∧ (∀ b ∈ inner, isBoundary b = false) ∧
      elements isBoundary (s :: rest) =
        (s :: inner ++ [upper]).map (·.value) :: elements isBoundary rest := by
  rw [elements]
  -- the inner supports are taken up to the next boundary, if there is one
  cases hs : isBoundary s with
  | false => exact .inl ⟨rfl, fun hs => Bool.noConfusion hs⟩
  | true =>
    have hinner : ∀ b ∈ rest.takeWhile (fun s => !isBoundary s), isBoundary b = false :=
      fun b hb => by simpa using List.mem_takeWhile_imp hb
    have hsplit := List.takeWhile_append_dropWhile (p := fun s => !isBoundary s) (l := rest)
    rw [List.span_eq_takeWhile_dropWhile]
    cases hdrop : rest.dropWhile fun s => !isBoundary s with
    | nil =>
      rw [hdrop, List.append_nil] at hsplit
      -- no boundary follows
      exact .inl ⟨rfl, fun _ b hb => hinner b (hsplit.symm ▸ hb)⟩
    | cons upper after =>
      rw [hdrop] at hsplit
      have hupper := List.head_dropWhile_not (fun s => !isBoundary s) (l := rest) (by simp [hdrop])
      refine .inr ⟨_, upper, after, hsplit.symm, rfl, by simpa [hdrop] using hupper, hinner, ?_⟩
      rw [List.map_append, List.map_cons, List.map_singleton]
      rfl

omit [Scalar α] in
/-- An element runs from one boundary to the next. -/
theorem exists_infix_of_mem_elements {nodes : List α} (h : nodes ∈ elements isBoundary supports) :
    ∃ lower inner upper, lower :: inner ++ [upper] <:+: supports ∧ isBoundary lower = true ∧
      isBoundary upper = true ∧ (∀ b ∈ inner, isBoundary b = false) ∧
      nodes = (lower :: inner ++ [upper]).map (·.value) := by
  induction supports with
  | nil => cases h
  | cons s rest ih =>
    -- an element that begins later is one of the rest
    have later : nodes ∈ elements isBoundary rest → ∃ lower inner upper,
        lower :: inner ++ [upper] <:+: s :: rest ∧ isBoundary lower = true ∧
          isBoundary upper = true ∧ (∀ b ∈ inner, isBoundary b = false) ∧
          nodes = (lower :: inner ++ [upper]).map (·.value) := fun h => by
      obtain ⟨lower, inner, upper, hwithin, hothers⟩ := ih h
      exact ⟨lower, inner, upper, List.infix_cons_iff.2 (.inr hwithin), hothers⟩
    rcases elements_cons_cases isBoundary s rest with
      ⟨heq, -⟩ | ⟨inner, upper, after, rfl, hs, hupper, hinner, heq⟩ <;> rw [heq] at h
    · exact later h
    · rcases List.mem_cons.1 h with rfl | h
      · exact ⟨s, inner, upper, ⟨[], after, by simp⟩, hs, hupper, hinner, rfl⟩
      · exact later h

/-- Between two boundaries, supports are covered: the first element that begins at the lower one, or
a later one, has them. -/
theorem mem_tails_elements [LawfulScalar α] (h : Increasing (supports.map (·.value)))
    {s lower upper : Support α} (hs : s ∈ supports) (hlower : lower ∈ supports)
    (hupper : upper ∈ supports) (hl : isBoundary lower = true) (hu : isBoundary upper = true)
    (hbelow : lower.value < s.value) (habove : s.value ≤ upper.value) :
    s.value ∈ (elements isBoundary supports).flatMap List.tail := by
  induction supports generalizing lower with
  | nil => cases hs
  | cons first rest ih =>
    have hrest : Increasing (rest.map (·.value)) := h.sublist (List.sublist_cons_self _ _)
    -- a support above another one is not the first
    have later : ∀ {a b : Support α}, a ∈ first :: rest → b ∈ first :: rest →
        a.value < b.value → b ∈ rest := fun {a b} ha hb hlt => by
      have hmem := h.mem_tail_of_lt (List.mem_map_of_mem hb) (List.mem_map_of_mem ha) hlt
      rcases List.mem_cons.1 hb with rfl | hb
      · exact absurd (List.rel_of_pairwise_cons h.pairwise hmem) (Scalar.not_lt_self _)
      · exact hb
    have hsrest := later hlower hs hbelow
    have hurest : upper ∈ rest := by
      refine later hlower hupper ?_
      rcases LawfulScalar.le_iff.1 habove with hlt | heq
      · exact LawfulScalar.lt_trans hbelow hlt
      · exact LawfulScalar.lt_of_lt_of_beq hbelow heq
    have hcovered : ∀ {b : Support α}, b ∈ rest → isBoundary b = true → b.value < s.value →
        s.value ∈ (elements isBoundary rest).flatMap List.tail := fun hb hbound hlt =>
      ih hrest hsrest hb hurest hbound hlt
    rcases elements_cons_cases isBoundary first rest with
      ⟨heq, hlast⟩ | ⟨inner, next, after, rfl, -, hnext, -, heq⟩ <;> rw [heq]
    · rcases List.mem_cons.1 hlower with rfl | hlower
      · rw [hlast hl upper hurest] at hu
        cases hu
      · exact hcovered hlower hl hbelow
    · rw [List.flatMap_cons, List.mem_append]
      rcases List.mem_append.1 hsrest with hinner | hafter
      · exact .inl (by simpa using .inl ⟨s, hinner, rfl⟩)
      · rcases List.mem_cons.1 hafter with rfl | hafter
        · exact .inl (by simp)
        · refine .inr (hcovered (b := next) (by simp) hnext ?_)
          have hpairs := List.pairwise_append.1 (List.map_append ▸ hrest.pairwise)
          exact List.rel_of_pairwise_cons hpairs.2.1 (List.mem_map_of_mem hafter)

/-- Without their first nodes, the elements of increasing supports have those after the first
boundary and up to the last one. -/
theorem mem_tails_elements_iff [LawfulScalar α] (h : Increasing (supports.map (·.value))) {x : α} :
    x ∈ (elements isBoundary supports).flatMap List.tail ↔ x ∈ supports.map (·.value) ∧
      (∃ b ∈ supports, isBoundary b = true ∧ b.value < x) ∧
      ∃ b ∈ supports, isBoundary b = true ∧ x ≤ b.value := by
  constructor
  · intro hx
    -- an element reaches from one boundary to another, and its values increase
    obtain ⟨nodes, hnodes, hx⟩ := List.mem_flatMap.1 hx
    obtain ⟨lower, inner, upper, hwithin, hlower, hupper, -, rfl⟩ :=
      exists_infix_of_mem_elements hnodes
    have hsub := hwithin.subset
    have hordered := h.sublist (hwithin.sublist.map (·.value))
    have hvalue : x ∈ (inner ++ [upper]).map (·.value) := by simpa using hx
    have hbelow : lower.value < x := List.rel_of_pairwise_cons hordered.pairwise hvalue
    refine ⟨?_, ⟨lower, hsub (by simp), hlower, hbelow⟩, upper, hsub (by simp), hupper, ?_⟩
    · obtain ⟨s, hs, rfl⟩ := List.mem_map.1 hvalue
      exact List.mem_map_of_mem (hsub (List.mem_cons_of_mem _ hs))
    · rw [LawfulScalar.le_iff]
      rw [List.map_append, List.map_singleton, List.mem_append, List.mem_singleton] at hvalue
      rcases hvalue with hinner | rfl
      · have hpairs := List.pairwise_append.1 (List.map_append ▸ hordered.pairwise)
        exact .inl (hpairs.2.2 x (List.mem_cons_of_mem _ hinner) _ (by simp))
      · exact .inr (hordered.defined _ (by simp))
  · rintro ⟨hx, ⟨lower, hlower, hl, hbelow⟩, upper, hupper, hu, habove⟩
    obtain ⟨s, hs, rfl⟩ := List.mem_map.1 hx
    exact mem_tails_elements h hs hlower hupper hl hu hbelow habove

end Equation

/-! ## What an equation speaks of -/

/-- An equation speaks of the derivative at the support that it evaluates it at only, and otherwise
of the variable at some nodes. -/
structure Equation.Mentions (e : Equation α) (d variableRef : Ref) (nodes : List α) : Prop where
  evaluates : e.derivative = d ∧ e.head.ref = d
  derivative : ∀ term ∈ e.terms, term.ref = d → term.value = e.head.value
  others : ∀ term ∈ e.terms, term.ref ≠ d → term.ref = variableRef ∧ term.value ∈ nodes

/-- The supports around which a stencil fits. -/
def Technique.inside (values : List α) : Technique → List α
  | .backward => values.tail
  | .forward => values.dropLast
  | .central => values.tail.dropLast

namespace Parameter

/-- A support that carries a label besides the one of derived supports. -/
def Boundary (q : Parameter α) (derived : Label) (x : α) : Prop :=
  ∃ l, q.supports.Stores x l ∧ l ≠ derived

/-- The supports at which the variable is taken where the derivative is evaluated at `x`: the
neighbours that the technique asks for, or the element, which has no boundary inside. -/
inductive Stencil (q : Parameter α) (x : α) : List α → Prop where
  | backward (hmethod : q.method = .finiteDifference .backward) {lower : α}
      (h : [lower, x] <:+: q.supports.values) : Stencil q x [lower, x]
  | forward (hmethod : q.method = .finiteDifference .forward) {upper : α}
      (h : [x, upper] <:+: q.supports.values) : Stencil q x [x, upper]
  | central (hmethod : q.method = .finiteDifference .central) {lower upper : α}
      (h : [lower, x, upper] <:+: q.supports.values) : Stencil q x [lower, upper]
  | element {n : Nat} (hmethod : q.method = .orthogonalCollocation n) {derived : Label}
      (hderived : q.info.label = .ok derived) {lower upper : α} {inner : List α}
      (h : lower :: inner ++ [upper] <:+: q.supports.values)
      (hlower : q.Boundary derived lower) (hupper : q.Boundary derived upper)
      (hinner : ∀ y ∈ inner, ¬ q.Boundary derived y) (hx : x ∈ inner ++ [upper]) :
      Stencil q x (lower :: inner ++ [upper])

variable {q : Parameter α} {derived : Label} {s : Support α}

/-- Among increasing supports, a boundary is told by the labels of its one support. -/
theorem boundary_iff [LawfulScalar α] (hordered : Increasing q.supports.values)
    (hlabelled : ∀ s ∈ q.supports.supports, s.Labelled) (hs : s ∈ q.supports.supports) :
    q.Boundary derived s.value ↔ (s.labels != [derived]) = true := by
  rw [bne_iff_ne]
  constructor
  · rintro ⟨l, ⟨s', hs', hvalue, hl⟩, hne⟩ honly
    obtain rfl := List.inj_on_of_nodup_map hordered.nodup hs' hs hvalue
    rw [honly, List.mem_singleton] at hl
    exact hne hl
  · intro hne
    obtain ⟨hnonempty, hnodup, -⟩ := hlabelled s hs
    by_contra hnone
    have hall : ∀ l ∈ s.labels, l = derived := fun l hl => by
      by_contra hl'
      exact hnone ⟨l, ⟨s, hs, rfl, hl⟩, hl'⟩
    -- labels that are all the same and not repeated are one label
    have hlist : s.labels = List.replicate s.labels.length derived :=
      List.eq_replicate_iff.2 ⟨rfl, hall⟩
    have hone : s.labels.length ≤ 1 := List.nodup_replicate.1 (hlist ▸ hnodup)
    have hpos := List.length_pos_iff.2 hnonempty
    rw [Nat.le_antisymm hone hpos] at hlist
    exact hne hlist

end Parameter

namespace Evaluation

open Equation

/-- The equations evaluate a derivative once at each support where the method of the parameter has
it, and relate its values to those of the variable around it. -/
structure Covers (q : Parameter α) (d variableRef : Ref) (equations : List (Equation α)) :
    Prop where
  increasing : Increasing (heads equations)
  differences : ∀ technique, q.method = .finiteDifference technique →
    heads equations = technique.inside q.supports.values
  /-- Elements cover what lies after the first boundary and up to the last one. -/
  elements : ∀ n, q.method = .orthogonalCollocation n → ∃ derived, q.info.label = .ok derived ∧
    (∀ x, x ∈ heads equations ↔ x ∈ q.supports.values ∧ (∃ b, q.Boundary derived b ∧ b < x) ∧
      ∃ b, q.Boundary derived b ∧ x ≤ b) ∧
    ((∀ b ∈ q.supports.values.head?, q.Boundary derived b) →
      (∀ b ∈ q.supports.values.getLast?, q.Boundary derived b) →
      heads equations = q.supports.values.tail)
  stencils : ∀ e ∈ equations, ∃ nodes, q.Stencil e.head.value nodes ∧ e.Mentions d variableRef nodes

variable {q : Parameter α} {d variableRef : Ref} {equations : List (Equation α)}

theorem mentions_difference (hne : variableRef ≠ d) (at' lower upper : α) :
    (difference d variableRef at' lower upper).Mentions d variableRef [lower, upper] where
  evaluates := ⟨rfl, rfl⟩
  derivative term hterm href := by
    simp only [difference, terms, List.mem_cons, List.not_mem_nil, or_false] at hterm
    rcases hterm with rfl | rfl | rfl
    · rfl
    · exact absurd href hne
    · exact absurd href hne
  others term hterm href := by
    simp only [difference, terms, List.mem_cons, List.not_mem_nil, or_false] at hterm
    rcases hterm with rfl | rfl | rfl
    · exact absurd rfl href
    · exact ⟨rfl, by simp⟩
    · exact ⟨rfl, by simp⟩

theorem mentions_element (hne : variableRef ≠ d) {nodes : List α} {e : Equation α}
    (he : e ∈ element d variableRef nodes) : e.Mentions d variableRef nodes := by
  obtain ⟨⟨node, row⟩, -, rfl⟩ := List.mem_map.1 he
  have hrest : ∀ term ∈ (row.zip nodes).map fun pair =>
      (⟨pair.1, variableRef, pair.2⟩ : EquationTerm α),
      term.ref = variableRef ∧ term.value ∈ nodes := by
    intro term hterm
    obtain ⟨⟨entry, other⟩, hentry, rfl⟩ := List.mem_map.1 hterm
    exact ⟨rfl, (List.of_mem_zip hentry).2⟩
  refine ⟨⟨rfl, rfl⟩, fun term hterm href => ?_, fun term hterm href => ?_⟩
  · rcases List.mem_cons.1 hterm with rfl | hterm
    · rfl
    · exact absurd ((hrest term hterm).1.symm.trans href) hne
  · rcases List.mem_cons.1 hterm with rfl | hterm
    · exact absurd rfl href
    · exact hrest term hterm

/-- A stencil covers the supports around which it fits. -/
theorem heads_differences {values : List α} {technique : Technique}
    (h : Equation.differences d variableRef values technique = .ok equations) :
    heads equations = technique.inside values := by
  rw [Equation.differences] at h
  split at h
  · cases h
  cases h
  have hforward : (values.zip values.tail).map Prod.fst = values.dropLast := by
    rw [List.zip_eq_zip_take_min, List.map_fst_zip (by simp), List.length_tail,
      List.dropLast_eq_take, Nat.min_eq_right (Nat.sub_le _ _)]
  cases technique with
  | backward =>
    rw [heads, List.map_map]
    change (values.zip values.tail).map Prod.snd = values.tail
    exact List.map_snd_zip (by simp)
  | forward =>
    rw [heads, List.map_map]
    exact hforward
  | central =>
    rw [heads, List.map_map]
    -- the middle of three neighbours begins the pair with the one after it
    change (values.zip (values.zip values.tail).tail).map (Prod.fst ∘ Prod.snd) =
      values.tail.dropLast
    rw [← List.map_map, List.map_snd_zip (by simp; omega), List.map_tail, hforward]
    exact List.tail_dropLast

theorem exists_stencil_of_differences (hne : variableRef ≠ d) {technique : Technique}
    (hmethod : q.method = .finiteDifference technique)
    (h : Equation.differences d variableRef q.supports.values technique = .ok equations) :
    ∀ e ∈ equations, ∃ nodes, q.Stencil e.head.value nodes ∧ e.Mentions d variableRef nodes := by
  rw [Equation.differences] at h
  split at h
  · cases h
  cases h
  intro e he
  cases technique with
  | backward =>
    obtain ⟨⟨s, next⟩, hmem, rfl⟩ := List.mem_map.1 he
    exact ⟨_, .backward hmethod (infix_of_mem_zip_tail hmem), mentions_difference hne ..⟩
  | forward =>
    obtain ⟨⟨s, next⟩, hmem, rfl⟩ := List.mem_map.1 he
    exact ⟨_, .forward hmethod (infix_of_mem_zip_tail hmem), mentions_difference hne ..⟩
  | central =>
    obtain ⟨⟨before, s, after⟩, hmem, rfl⟩ := List.mem_map.1 he
    exact ⟨_, .central hmethod (infix_of_mem_zip_pairs hmem), mentions_difference hne ..⟩

section Lawful

variable [LawfulScalar α] {derived : Label} {name : String}

theorem exists_stencil_of_collocation (hne : variableRef ≠ d)
    (hordered : Increasing q.supports.values) (hlabelled : ∀ s ∈ q.supports.supports, s.Labelled)
    {n : Nat} (hmethod : q.method = .orthogonalCollocation n)
    (hderived : q.info.label = .ok derived)
    (h : Equation.collocation d variableRef q.supports derived name = .ok equations) :
    ∀ e ∈ equations, ∃ nodes, q.Stencil e.head.value nodes ∧ e.Mentions d variableRef nodes := by
  rw [Equation.collocation] at h
  split at h
  · cases h
  cases h
  intro e he
  obtain ⟨nodes, hnodes, he⟩ := List.mem_flatMap.1 he
  obtain ⟨lower, inner, upper, hwithin, hlower, hupper, hinner, rfl⟩ :=
    exists_infix_of_mem_elements hnodes
  -- boundaries of an element are told by labels, those of a parameter by what is stored
  have hboundary : ∀ {s}, s ∈ lower :: inner ++ [upper] →
      (q.Boundary derived s.value ↔ (s.labels != [derived]) = true) := fun hs =>
    Parameter.boundary_iff hordered hlabelled (hwithin.subset hs)
  have hhead : e.head.value ∈ (inner ++ [upper]).map (·.value) := by
    have hmem : e.head.value ∈ heads (element d variableRef _) := List.mem_map_of_mem he
    rw [heads_element] at hmem
    simpa using hmem
  have hvalues := hwithin.map (·.value)
  have hmentions := mentions_element hne he
  simp only [List.map_cons, List.map_append, List.map_nil,
    List.cons_append] at hvalues hmentions hhead
  refine ⟨_, .element hmethod hderived hvalues ((hboundary (by simp)).2 hlower)
    ((hboundary (by simp)).2 hupper) (fun y hy hb => ?_) hhead, hmentions⟩
  obtain ⟨s, hs, rfl⟩ := List.mem_map.1 hy
  have hnot := (hboundary (by simp [hs])).1 hb
  rw [hinner s hs] at hnot
  cases hnot

/-- Elements cover what lies after the first boundary and up to the last one. -/
theorem mem_heads_collocation_iff (hordered : Increasing q.supports.values)
    (hlabelled : ∀ s ∈ q.supports.supports, s.Labelled)
    (h : Equation.collocation d variableRef q.supports derived name = .ok equations) {x : α} :
    x ∈ heads equations ↔ x ∈ q.supports.values ∧ (∃ b, q.Boundary derived b ∧ b < x) ∧
      ∃ b, q.Boundary derived b ∧ x ≤ b := by
  rw [Equation.collocation] at h
  split at h
  · cases h
  cases h
  -- again labels stand for what is stored
  have hexists : ∀ {P : α → Prop}, (∃ b, q.Boundary derived b ∧ P b) ↔
      ∃ s ∈ q.supports.supports, (s.labels != [derived]) = true ∧ P s.value := by
    intro P
    constructor
    · rintro ⟨_, ⟨l, ⟨s, hs, rfl, hl⟩, hne⟩, hP⟩
      exact ⟨s, hs, (Parameter.boundary_iff hordered hlabelled hs).1 ⟨l, ⟨s, hs, rfl, hl⟩, hne⟩, hP⟩
    · rintro ⟨s, hs, hb, hP⟩
      exact ⟨s.value, (Parameter.boundary_iff hordered hlabelled hs).2 hb, hP⟩
  rw [heads_elements, hexists, hexists]
  exact mem_tails_elements_iff hordered

/-- With boundaries at both ends, all supports but the first are covered. -/
theorem heads_collocation (hordered : Increasing q.supports.values)
    (hlabelled : ∀ s ∈ q.supports.supports, s.Labelled)
    (h : Equation.collocation d variableRef q.supports derived name = .ok equations)
    (hfirst : ∀ b ∈ q.supports.values.head?, q.Boundary derived b)
    (hlast : ∀ b ∈ q.supports.values.getLast?, q.Boundary derived b) :
    heads equations = q.supports.values.tail := by
  refine (hordered.sublist (heads_collocation_sublist h)).eq_of_mem_iff
    (hordered.sublist (List.tail_sublist _)) fun x => ?_
  rw [mem_heads_collocation_iff hordered hlabelled h]
  constructor
  · rintro ⟨hx, ⟨b, ⟨l, ⟨s, hs, rfl, -⟩, -⟩, hlt⟩, -⟩
    exact hordered.mem_tail_of_lt hx (List.mem_map_of_mem hs) hlt
  · intro hx
    obtain ⟨b, hb, hlt⟩ := hordered.exists_head_lt hx
    obtain ⟨b', hb', hle⟩ := hordered.exists_le_getLast (List.mem_of_mem_tail hx)
    exact ⟨List.mem_of_mem_tail hx, ⟨b, hfirst b hb, hlt⟩, b', hlast b' hb', hle⟩

/-- Equations that are built from increasing supports cover them. -/
theorem covers_of_build (hne : variableRef ≠ d) (hordered : Increasing q.supports.values)
    (hlabelled : ∀ s ∈ q.supports.supports, s.Labelled)
    (h : build d variableRef q = .ok equations) : Covers q d variableRef equations := by
  -- heads come in the order of the supports, for either method
  have hincreasing := hordered.sublist (heads_sublist_of_build h)
  unfold build at h
  split at h
  · rename_i technique hmethod
    refine ⟨hincreasing, fun technique' hmethod' => ?_, fun n hn => ?_,
      exists_stencil_of_differences hne hmethod h⟩
    · rw [hmethod] at hmethod'
      cases hmethod'
      exact heads_differences h
    · rw [hmethod] at hn
      cases hn
  · rename_i n hmethod
    obtain ⟨derived, hderived, h⟩ := Except.bind_eq_ok.1 h
    refine ⟨hincreasing, fun technique htechnique => ?_, fun _ _ => ⟨derived, hderived,
      fun x => mem_heads_collocation_iff hordered hlabelled h,
      heads_collocation hordered hlabelled h⟩,
      exists_stencil_of_collocation hne hordered hlabelled hmethod hderived h⟩
    rw [hmethod] at htechnique
    cases htechnique
  · cases h

/-- Whatever was asked for before, equations that an evaluation builds cover the supports that the
parameter has then, with the derived ones in place, if these are defined. -/
theorem covers_of_evaluate {m : Model α} (h : Requested m) {e : Environment α} {d : Ref}
    {object : Derivative} (hd : m.derivative d = .ok object) (hnone : m.equations? d.index = none)
    {equations : List (Equation α)} {w' : Workspace α}
    (hrun : evaluate d ⟨e, m⟩ = .ok equations w') (hdef : w'.model.Defined) :
    ∃ q, w'.model.parameter (.given object.parameter) = .ok q ∧
      Covers q d object.ref equations := by
  have hbuilt : ∃ q, w'.model.parameter (.given object.parameter) = .ok q ∧
      build d object.ref q = .ok equations := by
    have hends : Ends (evaluate d) ⟨e, m⟩ (fun equations w' => ∃ q,
        w'.model.parameter (.given object.parameter) = .ok q ∧
          build d object.ref q = .ok equations) fun _ => True := by
      refine ends_evaluate_of trivial (fun stored hstored => ?_) fun object' _ hobject => ?_
      · rw [hnone] at hstored
        cases hstored
      · obtain rfl := Except.ok.inj (hd.symm.trans hobject)
        refine .of_forall (fun _ w₁ => ⟨trivial, fun q built hq hbuild => ?_⟩) fun _ => trivial
        -- that equations are stored is noted on the parameter, which does not show in them
        exact ⟨_, Model.parameter_modifyParameter
          (m := w₁.model.storeEquations d.index.toNat built) hq _, hbuild⟩
    exact hends.of_ok hrun
  obtain ⟨q, hq, hbuild⟩ := hbuilt
  have hrequest : (Request.evaluate d).operation ⟨e, m⟩ = .ok () w' := Operation.discard_eq_ok hrun
  have htidy := Parameter.tidy_of_requested (h.of_run hrequest) _ q hq
  -- nothing is computed from itself, and so the variable is not the derivative
  have hne : object.ref ≠ d := fun heq => by
    obtain ⟨hid, hkind, hfound⟩ := Model.derivative_eq_ok.1 hd
    have hfind : m.find? d = some (.derivative object) := Model.find?_eq_some.2 ⟨hkind, hfound⟩
    have hsource : d ∈ (Object.derivative object : Object α).sources :=
      List.mem_singleton.2 heq.symm
    have hreads : m.Reads d d := ⟨_, Model.object_eq_ok.2 ⟨hid, hfind⟩, hsource⟩
    exact h.intact.wellFounded.irrefl.irrefl d hreads
  exact ⟨q, hq, covers_of_build hne (htidy.ordered (hdef _ q hq)) htidy.labelled hbuild⟩

end Lawful

/-- A support before the first boundary, with the label of derived supports, is not covered, and nor
is the first boundary. -/
theorem covers_of_evaluate_leading :
    let p : Ref := ⟨0, .parameter, 1⟩
    let d : Ref := ⟨0, .derivative, 1⟩
    let m : Model ℚ := Request.replay { id := 0 }
      [.addParameter (.scalar (.interval 0 1)) "t" (some [1 / 2, 1]) 0 (some 6)
        (.orthogonalCollocation 3),
      .addSupports p [0] (.given .collocation) true,
      .addInfiniteVariable "x" [.given p] none none .none false,
      .addDerivative (.given ⟨0, .infiniteVariable, 1⟩) p "dx" (.ok "t")]
    Requested m ∧ ∃ object, m.derivative d = .ok object ∧ m.equations? d.index = none ∧
      ∃ equations w', evaluate d ⟨{}, m⟩ = .ok equations w' ∧ w'.model.Defined ∧
        ∃ q, w'.model.parameter (.given object.parameter) = .ok q ∧
          q.supports.values = [0, 1 / 2, 3 / 4, 1] ∧ heads equations = [3 / 4, 1] ∧
          Covers q d object.ref equations := by
  intro p d m
  have hr : Requested m := .replay (.start 0 "model") _
  have hnone : m.equations? d.index = none := Option.isNone_iff_eq_none.1 (by decide +kernel)
  obtain ⟨object, hd, hp⟩ := Except.exists_of_decide (x := m.derivative d)
    (fun object => object.parameter = p) (by decide +kernel)
  have hends : Ends (evaluate d) ⟨{}, m⟩ (fun equations w' => heads equations = [3 / 4, 1] ∧
      w'.model.allDefined = true ∧ (w'.model.parameter (.given p)).toOption.any
        (fun q => q.supports.values = [0, 1 / 2, 3 / 4, 1]) = true) fun _ => False := by
    decide +kernel
  obtain ⟨equations, w', hrun, hheads, hdef, hvalues⟩ := hends.exists_ok
  have hdef := Model.defined_of_allDefined hdef
  obtain ⟨q, hq, hcovers⟩ := covers_of_evaluate hr hd hnone hrun hdef
  obtain ⟨q', hq', hvalues⟩ := Except.exists_of_decide _ hvalues
  obtain rfl := Except.ok.inj ((hp ▸ hq).symm.trans hq')
  exact ⟨hr, object, hd, hnone, equations, w', hrun, hdef, q, hq, hvalues, hheads, hcovers⟩

end Evaluation

end Discretization
