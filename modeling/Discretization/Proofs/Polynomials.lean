import Mathlib.LinearAlgebra.Lagrange
import Discretization.Proofs.Evaluations
import Discretization.Proofs.Values

/-!
# Evaluation Equations of Polynomials

Read over the rationals, evaluation equations hold exactly for polynomials of low degree. A finite
difference has the slope of a line. An element of orthogonal collocation has one node more than the
degree up to which it is exact: its matrix consists of the slopes of the Lagrange basis at the
nodes, in barycentric form away from the diagonal, and on it because the basis adds up to one.

## Main definitions

* `slopeAt`: the slopes of the Lagrange basis at the nodes;
* `Equation.ExactBelow`: an equation holds for all polynomials below a degree.

## Main results

* `blockSum_eq`: a sum in blocks is the sum;
* `lagrangeMatrix_eq`: the differentiation matrix consists of the slopes of the basis;
* `exact_of_build`: built equations are exact below the number of their nodes.
-/

namespace Discretization

open Polynomial

/-! ## Sums in blocks -/

section Sums

theorem Scalar.sum_eq (xs : List ℚ) : Scalar.sum xs = xs.sum :=
  List.sum_eq_foldl.symm

theorem Scalar.product_eq (xs : List ℚ) : Scalar.product xs = xs.prod :=
  List.prod_eq_foldl.symm

/-- Rows of eight may be added lane by lane. -/
theorem sum_lanes (f : ℕ → ℚ) (n : ℕ) :
    ((List.range 8).map fun lane => ((List.range n).map fun row => f (row * 8 + lane)).sum).sum =
      ((List.range (n * 8)).map f).sum := by
  induction n with
  | zero => simp
  | succ n ih =>
    simp only [List.range_succ (n := n), List.map_append, List.sum_append, List.map_singleton,
      List.sum_singleton]
    rw [List.sum_map_add, ih, Nat.add_mul, Nat.one_mul, List.range_add, List.map_append,
      List.sum_append, List.map_map]
    rfl

theorem map_getD_range {xs : List ℚ} {n : ℕ} (h : n ≤ xs.length) :
    (List.range n).map (xs.getD · 0) = xs.take n := by
  refine List.ext_getElem (by simpa using h) fun i _ _ => ?_
  rw [List.getElem_map, List.getElem_range, List.getElem_take, List.getElem_eq_getD 0]

/-- Over exact numbers a sum in blocks is the sum. -/
theorem blockSum_eq (xs : List ℚ) : blockSum xs = xs.sum := by
  induction xs using blockSum.induct with
  | case1 xs hshort => rw [blockSum, if_pos hshort, Scalar.sum_eq]
  | case2 xs hlong hblock =>
    rw [blockSum, if_neg hlong, dif_pos hblock]
    extract_lets full partials lane
    -- a lane adds up every eighth number
    have hpartials : partials = (List.range 8).map fun lane =>
        ((List.range (xs.length / 8)).map fun row => xs.getD (row * 8 + lane) 0).sum :=
      List.map_congr_left fun lane _ => by
        generalize (List.range (xs.length / 8)).map (fun row => xs.getD (row * 8 + lane) 0) = ys
        cases ys with
        | nil => rfl
        | cons first rest =>
          rw [List.sum_cons, ← Scalar.sum_eq]
          exact Scalar.foldl_add first rest
    -- the lanes are added in pairs, which makes no difference to exact numbers
    have hlanes : lane 0 + lane 1 + (lane 2 + lane 3) + (lane 4 + lane 5 + (lane 6 + lane 7)) =
        partials.sum := by
      simp only [lane, hpartials]
      generalize (fun lane => ((List.range (xs.length / 8)).map fun row =>
        xs.getD (row * 8 + lane) 0).sum) = total
      simp [List.range_succ, add_assoc]
    calc (xs.drop full).foldl (· + ·)
          (lane 0 + lane 1 + (lane 2 + lane 3) + (lane 4 + lane 5 + (lane 6 + lane 7)))
      _ = partials.sum + (xs.drop full).sum := by
        rw [hlanes, ← Scalar.sum_eq (xs.drop full)]
        exact Scalar.foldl_add _ _
      _ = (xs.take full).sum + (xs.drop full).sum := by
        rw [hpartials, sum_lanes fun i => xs.getD i 0, map_getD_range (Nat.div_mul_le_self _ _)]
      _ = xs.sum := by rw [← List.sum_append, List.take_append_drop]
  | case3 xs hlong hblock half ih ih' =>
    rw [blockSum, if_neg hlong, dif_neg hblock]
    dsimp only
    rw [ih, ih', ← List.sum_append, List.take_append_drop]

end Sums

/-! ## Slopes of the Lagrange basis -/

/-- A node by its position. -/
def nodeAt (nodes : List ℚ) (k : ℕ) : ℚ :=
  nodes.getD k 0

/-- The slope of a polynomial of the Lagrange basis, which is one at the `k`-th node and zero at the
others, at the `j`-th node. -/
noncomputable def slopeAt (nodes : List ℚ) (j k : ℕ) : ℚ :=
  (derivative (Lagrange.basis (Finset.range nodes.length) (nodeAt nodes) k)).eval (nodeAt nodes j)

section Slopes

variable {nodes : List ℚ} {j k : ℕ}

theorem nodeAt_eq (h : k < nodes.length) : nodeAt nodes k = nodes[k] :=
  (List.getElem_eq_getD 0).symm

theorem map_nodeAt (nodes : List ℚ) : (List.range nodes.length).map (nodeAt nodes) = nodes :=
  List.ext_getElem (by simp) fun k _ hk => by
    rw [List.getElem_map, List.getElem_range, nodeAt_eq hk]

theorem injOn_nodeAt (h : nodes.Nodup) :
    Set.InjOn (nodeAt nodes) (Finset.range nodes.length) := by
  intro i hi j hj hij
  rw [Finset.mem_coe, Finset.mem_range] at hi hj
  rw [nodeAt_eq hi, nodeAt_eq hj] at hij
  exact h.getElem_inj_iff.1 hij

/-- Away from the diagonal a slope is the quotient of the barycentric weights over the difference of
the nodes. -/
theorem slopeAt_of_ne (h : nodes.Nodup) (hj : j < nodes.length) (hk : k < nodes.length)
    (hne : k ≠ j) : slopeAt nodes j k =
      Lagrange.nodalWeight (Finset.range nodes.length) (nodeAt nodes) k /
        Lagrange.nodalWeight (Finset.range nodes.length) (nodeAt nodes) j /
          (nodeAt nodes j - nodeAt nodes k) := by
  rw [slopeAt]
  generalize hs : Finset.range nodes.length = s
  have hjs : j ∈ s := hs ▸ Finset.mem_range.2 hj
  have hks : k ∈ s := hs ▸ Finset.mem_range.2 hk
  have hdifference : nodeAt nodes j - nodeAt nodes k ≠ 0 := by
    rw [sub_ne_zero]
    exact fun heq => hne ((hs ▸ injOn_nodeAt h) hks hjs heq.symm)
  -- the weight of the `j`-th node has the difference to the `k`-th one as a factor
  have hweight : Lagrange.nodalWeight s (nodeAt nodes) j =
      ((nodeAt nodes j - nodeAt nodes k) *
        (Lagrange.nodal ((s.erase j).erase k) (nodeAt nodes)).eval (nodeAt nodes j))⁻¹ := by
    rw [Lagrange.nodalWeight_eq_eval_nodal_erase_inv,
      Lagrange.nodal_eq_mul_nodal_erase (Finset.mem_erase.2 ⟨hne, hks⟩), eval_mul, eval_sub,
      eval_X, eval_C]
  rw [Lagrange.basis_eq_prod_sub_inv_mul_nodal_div hks, ← Lagrange.nodal_erase_eq_nodal_div hks,
    derivative_C_mul, eval_C_mul,
    Lagrange.eval_nodal_derivative_eval_node_eq (Finset.mem_erase.2 ⟨hne.symm, hjs⟩),
    Finset.erase_right_comm, hweight, div_inv_eq_mul, mul_comm (nodeAt nodes j - nodeAt nodes k),
    ← mul_assoc, mul_div_cancel_right₀ _ hdifference]

/-- The slopes at a node add up to zero, as the basis adds up to one. -/
theorem sum_slopeAt (h : nodes.Nodup) (hj : j < nodes.length) :
    ∑ k ∈ Finset.range nodes.length, slopeAt nodes j k = 0 := by
  have hone := congrArg (fun p => (derivative p).eval (nodeAt nodes j))
    (Lagrange.sum_basis (injOn_nodeAt h) ⟨j, Finset.mem_range.2 hj⟩)
  simpa [slopeAt, eval_finsetSum] using hone

/-- The slope of a polynomial at a node is determined by its values at the nodes. -/
theorem sum_slopeAt_mul (h : nodes.Nodup) {q : ℚ[X]} (hq : q.degree < nodes.length) (j : ℕ) :
    ∑ k ∈ Finset.range nodes.length, slopeAt nodes j k * q.eval (nodeAt nodes k) =
      q.derivative.eval (nodeAt nodes j) := by
  have hinterpolate := Lagrange.eq_interpolate (injOn_nodeAt h) (by rwa [Finset.card_range])
  rw [Lagrange.interpolate_apply] at hinterpolate
  conv_rhs => rw [hinterpolate]
  simp only [derivative_sum, derivative_C_mul, eval_finsetSum, eval_C_mul, slopeAt]
  exact Finset.sum_congr rfl fun k _ => mul_comm _ _

/-! ## The differentiation matrix -/

theorem mapIdx_eq {β : Type} (f : ℕ → ℚ → β) (nodes : List ℚ) :
    nodes.mapIdx f = (List.range nodes.length).map fun k => f k (nodeAt nodes k) :=
  List.ext_getElem (by simp) fun k hk _ => by
    rw [List.getElem_mapIdx, List.getElem_map, List.getElem_range, nodeAt_eq (by simpa using hk)]

theorem nodeDifferences_eq (nodes : List ℚ) (j : ℕ) (node : ℚ) : nodeDifferences nodes j node =
    (List.range nodes.length).map fun k => if k = j then 1 else node - nodeAt nodes k :=
  mapIdx_eq _ _

theorem barycentricWeights_eq (nodes : List ℚ) : barycentricWeights nodes =
    (List.range nodes.length).map
      (Lagrange.nodalWeight (Finset.range nodes.length) (nodeAt nodes)) := by
  rw [barycentricWeights, mapIdx_eq]
  refine List.map_congr_left fun j hj => ?_
  have hj : j ∈ Finset.range nodes.length := Finset.mem_range.2 (List.mem_range.1 hj)
  rw [nodeDifferences_eq, Scalar.product_eq, Lagrange.nodalWeight, Finset.prod_inv_distrib,
    one_div]
  change (∏ k ∈ Finset.range nodes.length, _)⁻¹ = _
  rw [← Finset.mul_prod_erase _ _ hj, if_pos rfl, one_mul]
  congr 1
  exact Finset.prod_congr rfl fun k hk => if_neg (Finset.ne_of_mem_erase hk)

/-- The differentiation matrix of different nodes consists of the slopes of the Lagrange basis. -/
theorem lagrangeMatrix_eq (h : nodes.Nodup) : lagrangeMatrix nodes =
    (List.range nodes.length).map fun j => (List.range nodes.length).map (slopeAt nodes j) := by
  rw [lagrangeMatrix, mapIdx_eq]
  refine List.map_congr_left fun j hmem => ?_
  have hj : j < nodes.length := List.mem_range.1 hmem
  rw [barycentricWeights_eq, nodeDifferences_eq, List.zip_map']
  extract_lets weight row
  have hweight : weight = Lagrange.nodalWeight (Finset.range nodes.length) (nodeAt nodes) j := by
    simp [weight, hj]
  -- beside the diagonal an entry is a ratio of weights over a difference
  have hrow : row = (List.range nodes.length).map fun k =>
      if k = j then 0 else slopeAt nodes j k := by
    refine List.ext_getElem (by simp [row]) fun k hk hk' => ?_
    simp only [row, List.getElem_mapIdx, List.getElem_map, List.getElem_range, hweight]
    split
    · rfl
    · rename_i hne
      rw [slopeAt_of_ne h hj (by simpa using hk') hne]
  -- the slopes at a node add up to zero, so the diagonal is what the others leave
  have hdiagonal : -(blockSum row) = slopeAt nodes j j := by
    rw [blockSum_eq, hrow]
    change -(∑ k ∈ Finset.range nodes.length, if k = j then 0 else slopeAt nodes j k) = _
    rw [← Finset.add_sum_erase _ _ (Finset.mem_range.2 hj), if_pos rfl, zero_add,
      Finset.sum_congr rfl fun k hk => if_neg (Finset.ne_of_mem_erase hk), neg_eq_iff_add_eq_zero,
      add_comm, Finset.add_sum_erase _ _ (Finset.mem_range.2 hj), sum_slopeAt h hj]
  rw [hdiagonal, hrow]
  refine List.ext_getElem (by simp) fun k hk hk' => ?_
  rw [List.getElem_set, List.getElem_map, List.getElem_map, List.getElem_range]
  split
  · rename_i hjk
    rw [hjk]
  · rename_i hjk
    exact if_neg (Ne.symm hjk)

end Slopes

/-! ## Equations -/

/-- A variable has the values of a polynomial, and its derivative those of the slope. -/
structure Samples (value : Ref → ℚ → ℚ) (derivativeRef variableRef : Ref) (q : ℚ[X]) : Prop where
  slope : ∀ s, value derivativeRef s = q.derivative.eval s
  level : ∀ s, value variableRef s = q.eval s

namespace Equation

variable {derivativeRef variableRef : Ref}

/-- The terms add up to zero for all polynomials below a degree. -/
def ExactBelow (derivativeRef variableRef : Ref) (n : ℕ) (e : Equation ℚ) : Prop :=
  ∀ (q : ℚ[X]) (value : Ref → ℚ → ℚ), q.degree < n →
    Samples value derivativeRef variableRef q → e.residual value = 0

/-- A difference has the slope of a line, wherever it is taken. -/
theorem exactBelow_difference (at' lower upper : ℚ) :
    (difference derivativeRef variableRef at' lower upper).ExactBelow derivativeRef variableRef
      2 := by
  intro q value hq hvalue
  obtain ⟨a, b, rfl⟩ : ∃ a b, q = C a * X + C b := by
    refine exists_eq_X_add_C_of_natDegree_le_one ?_
    by_cases hzero : q = 0
    · simp [hzero]
    · exact Nat.lt_succ_iff.1 ((natDegree_lt_iff_degree_lt hzero).2 hq)
  rw [residual, Scalar.sum_eq]
  simp only [difference, terms, List.map_cons, List.map_nil, List.sum_cons, List.sum_nil,
    hvalue.slope, hvalue.level, derivative_add, derivative_C_mul, derivative_X, derivative_C,
    eval_add, eval_mul, eval_C, eval_X, eval_one, eval_zero]
  ring

theorem exactBelow_differences {values : List ℚ} {technique : Technique}
    {equations : List (Equation ℚ)}
    (h : differences derivativeRef variableRef values technique = .ok equations) :
    ∀ e ∈ equations, e.ExactBelow derivativeRef variableRef 2 := by
  intro e he
  obtain ⟨_, -, _, -, _, -, rfl⟩ := exists_difference_of_mem h he
  exact exactBelow_difference _ _ _

/-- An equation of an element is about the slopes of the basis at one node. -/
theorem exists_slopeAt_of_mem_element {nodes : List ℚ} (h : nodes.Nodup) {e : Equation ℚ}
    (he : e ∈ element derivativeRef variableRef nodes) : ∃ j, e =
      { derivative := derivativeRef
        head := ⟨-1, derivativeRef, nodeAt nodes j⟩
        rest := (List.range nodes.length).map fun k =>
          ⟨slopeAt nodes j k, variableRef, nodeAt nodes k⟩ } := by
  obtain ⟨⟨node, row⟩, hmem, rfl⟩ := List.mem_map.1 he
  -- a row of the matrix belongs to each node, and an entry of it to each node again
  have hrows := List.zip_map' (f := nodeAt nodes)
    (g := fun j => (List.range nodes.length).map (slopeAt nodes j)) (l := List.range nodes.length)
  rw [map_nodeAt, ← lagrangeMatrix_eq h] at hrows
  rw [hrows] at hmem
  obtain ⟨j, -, hpair⟩ := List.mem_map.1 (List.mem_of_mem_tail hmem)
  obtain ⟨rfl, rfl⟩ := Prod.mk.inj hpair
  have hentries := List.zip_map' (f := slopeAt nodes j) (g := nodeAt nodes)
    (l := List.range nodes.length)
  rw [map_nodeAt] at hentries
  refine ⟨j, ?_⟩
  dsimp only
  rw [hentries, List.map_map]
  rfl

/-- The equations of an element are exact below the number of its nodes. -/
theorem exactBelow_element {nodes : List ℚ} (h : nodes.Nodup) :
    ∀ e ∈ element derivativeRef variableRef nodes,
      e.ExactBelow derivativeRef variableRef nodes.length := by
  intro e he q value hq hvalue
  obtain ⟨j, rfl⟩ := exists_slopeAt_of_mem_element h he
  rw [residual, terms, Scalar.sum_eq, List.map_cons, List.sum_cons, List.map_map, hvalue.slope,
    ← sum_slopeAt_mul h hq, neg_one_mul, neg_add_eq_zero]
  change _ = ∑ k ∈ Finset.range nodes.length, slopeAt nodes j k * value variableRef (nodeAt nodes k)
  exact Finset.sum_congr rfl fun k _ => by rw [hvalue.level]

theorem exactBelow_collocation {supports : SupportMap ℚ} {derived : Label} {name : String}
    {equations : List (Equation ℚ)} (hnodup : supports.values.Nodup)
    (h : collocation derivativeRef variableRef supports derived name = .ok equations) :
    ∀ e ∈ equations, ∃ nodes ∈ elements (fun s => s.labels != [derived]) supports.supports,
      e ∈ element derivativeRef variableRef nodes ∧
        e.ExactBelow derivativeRef variableRef nodes.length := by
  rw [collocation] at h
  split at h
  · cases h
  cases h
  intro e he
  obtain ⟨nodes, hnodes, he⟩ := List.mem_flatMap.1 he
  exact ⟨nodes, hnodes, he,
    exactBelow_element (hnodup.sublist (elements_sublist _ _ nodes hnodes)) e he⟩

end Equation

/-! ## Built equations -/

/-- Over supports in order, the equations of a derivative are exact: those of a finite difference
for lines, whatever its technique, and those of an element for polynomials of smaller degree than
the element has nodes, wherever these lie. -/
theorem exact_of_build {derivativeRef variableRef : Ref} {p : Parameter ℚ}
    {equations : List (Equation ℚ)} (hordered : Increasing p.supports.values)
    (hbuild : Evaluation.build derivativeRef variableRef p = .ok equations) :
    (∀ technique, p.method = .finiteDifference technique →
      ∀ e ∈ equations, e.ExactBelow derivativeRef variableRef 2) ∧
    ∀ n, p.method = .orthogonalCollocation n → ∃ label, p.info.label = .ok label ∧
      ∀ e ∈ equations, ∃ nodes ∈
        Equation.elements (fun s => s.labels != [label]) p.supports.supports,
        e ∈ Equation.element derivativeRef variableRef nodes ∧
          e.ExactBelow derivativeRef variableRef nodes.length := by
  have hnodup : p.supports.values.Nodup := hordered.pairwise.imp ne_of_lt
  unfold Evaluation.build at hbuild
  -- the method decides which equations are built
  constructor
  · intro technique hmethod
    rw [hmethod] at hbuild
    exact Equation.exactBelow_differences hbuild
  · intro n hmethod
    rw [hmethod] at hbuild
    obtain ⟨label, hlabel, hbuild⟩ := Except.bind_eq_ok.1 hbuild
    exact ⟨label, hlabel, Equation.exactBelow_collocation hnodup hbuild⟩

/-- An element whose inner nodes lie anywhere. -/
theorem exact_of_build_element :
    let d : Ref := ⟨0, .derivative, 1⟩
    let x : Ref := ⟨0, .infiniteVariable, 1⟩
    let p : Parameter ℚ :=
      { name := "t", domain := .scalar (.interval 0 1), digits := 6
        method := .orthogonalCollocation 4, info := .uniform [1 / 4, 1 / 2] .collocation
        supports := ⟨[⟨0, [.userDefined]⟩, ⟨1 / 4, [.collocation]⟩, ⟨1 / 2, [.collocation]⟩,
          ⟨1, [.userDefined]⟩]⟩ }
    Increasing p.supports.values ∧ ∃ equations, Evaluation.build d x p = .ok equations ∧
      equations.length = 3 ∧ ∀ e ∈ equations, e.ExactBelow d x 4 := by
  intro d x p
  have hordered : Increasing p.supports.values :=
    ⟨fun _ _ => ExactScalar.defined _, by decide +kernel⟩
  have hlength : (Evaluation.build d x p).toOption.map (·.length) = some 3 := by decide +kernel
  cases hbuild : Evaluation.build d x p with
  | error e =>
    rw [hbuild] at hlength
    cases hlength
  | ok equations =>
    rw [hbuild] at hlength
    obtain ⟨label, hlabel, hexact⟩ := (exact_of_build hordered hbuild).2 4 rfl
    cases hlabel
    refine ⟨hordered, equations, rfl, Option.some.inj hlength, fun e he => ?_⟩
    obtain ⟨nodes, hnodes, -, hexact⟩ := hexact e he
    obtain rfl : nodes = [0, 1 / 4, 1 / 2, 1] := List.mem_singleton.1 hnodes
    exact hexact

end Discretization
