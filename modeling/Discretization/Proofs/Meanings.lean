import Discretization.Proofs.Alignments
import Discretization.Proofs.Answers
import Discretization.Proofs.Values

/-!
# The Meaning of Constraints

Over exact numbers a transcription keeps what constraints say. An assignment of the finite variables
gives every object of the model a value at every point of the grid, by a definition that knows
nothing of remembered expressions, shared terms and constants: a measure is the weighted sum of the
values of its function with the measured parameters replaced. The finite constraint at a key holds
for an assignment just if the constraint of the model holds at that key.

## Main definitions

* `Valuation`: values of parameters;
* `Model.value?`, `Model.sum?`: the value of an object, and of a sum of objects, under a valuation;
* `Constraint.Admits`: a key satisfies the restrictions of a constraint;
* `Faithful`: the finite constraints of a constraint mean what it means.

## Main results

* `Building.respects_denotes`: expressions of a transcription have the values of their objects;
* `faithful_of_build`: a build keeps the meaning of every constraint.
-/

namespace Discretization

variable {α : Type} [Scalar α]

/-! ## Values of objects -/

/-- Values of parameters; whatever else is asked for has none. -/
abbrev Valuation (α : Type) := Ref → Option α

namespace Valuation

/-- The parameters have the values of a key. -/
def ofKey {α : Type} (parameters : List Ref) (key : List α) : Valuation α :=
  fun p => (parameters.zip key).lookup p

/-- Some parameters get other values. -/
def override {α : Type} (v : Valuation α) (parameters : List Ref) (values : List α) : Valuation α :=
  fun p => (ofKey parameters values p).or (v p)

end Valuation

/-- What a point counts beside its coefficient. -/
def Weight.at (weight : Weight α) (node : List α) : α :=
  match weight with
  | .constant c => c
  | .function f => f node

omit [Scalar α] in
/-- The `k`-th point of measure data: the `k`-th support of each parameter. -/
def MeasureData.node? (data : MeasureData α) (k : Nat) : Option (List α) :=
  data.supports.mapM (·[k]?)

namespace Model

/-- A point with each value rounded to the digits of its parameter. -/
def rounded? (m : Model α) (parameters : List Ref) (node : List α) : Option (List α) :=
  (parameters.zip node).mapM fun (p, x) => do
    let q ← (m.parameter (.given p)).toOption
    (roundTo q.digits x).toOption

/-- The value of an object where parameters have given values, under an assignment of the finite
variables, which stand for the objects of the model as the given entries say. The value of a measure
is the sum, over its points, of coefficient times weight times the value of its function with the
measured parameters at the rounded point. -/
def value? (m : Model α) (vars : Entries α Nat) (σ : Int → α) (ref : Ref) (v : Valuation α) :
    Option α :=
  match ref.kind with
  | .parameter => v ref
  | .finiteVariable => do
    let entry ← vars.get? ref
    return σ (← entry.get? [])
  | .pointVariable => do
    let x ← (m.pointVariable ref).toOption
    let entry ← vars.get? x.ref
    return σ (← entry.get? x.values)
  | .infiniteVariable | .derivative => do
    let (_, parameters) ← (m.indexed ref).toOption
    let entry ← vars.get? ref
    return σ (← entry.get? (← parameters.mapM v))
  | .measure => do
    let μ ← (m.measure ref).toOption
    if _h : μ.function.rank < ref.rank then
      let terms ← μ.data.coefficients.zipIdx.mapM fun (coefficient, k) => do
        let node ← μ.data.node? k
        let rounded ← m.rounded? μ.data.parameters node
        let x ← value? m vars σ μ.function (v.override μ.data.parameters rounded)
        return coefficient * μ.data.weight.at node * x
      return Scalar.sum terms
    else none
  | _ => none
termination_by ref.rank

/-- The value of a sum of coefficients times objects. -/
def sum? (m : Model α) (vars : Entries α Nat) (σ : Int → α) (terms : List (α × Ref))
    (v : Valuation α) : Option α := do
  let values ← terms.mapM fun (coefficient, ref) =>
    return coefficient * (← m.value? vars σ ref v)
  return Scalar.sum values

variable {m : Model α} {vars : Entries α Nat} {σ : Int → α} {ref : Ref} {v : Valuation α}
  {parameters : List Ref}

theorem value?_parameter (hk : ref.kind = .parameter) : m.value? vars σ ref v = v ref := by
  rw [value?, hk]

theorem value?_finiteVariable (hk : ref.kind = .finiteVariable) {i : Nat}
    (he : vars.get? ref = some (.single i)) : m.value? vars σ ref v = some (σ i) := by
  rw [value?, hk, he]
  rfl

theorem value?_pointVariable {x : PointVariable α} (hx : m.pointVariable ref = .ok x)
    {e : Entry α Nat} {i : Nat} (he : vars.get? x.ref = some e) (hi : e.get? x.values = some i) :
    m.value? vars σ ref v = some (σ i) := by
  have hk := (pointVariable_eq_ok.1 hx).2.1
  simp only [value?, hk, hx, he, hi, Except.toOption, Option.bind_eq_bind, Option.bind_some]
  rfl

theorem value?_indexed {name : String} (hf : m.indexed ref = .ok (name, parameters))
    {e : Entry α Nat} {key : List α} {i : Nat} (he : vars.get? ref = some e)
    (hkey : List.Forall₂ (fun p x => v p = some x) parameters key) (hi : e.get? key = some i) :
    m.value? vars σ ref v = some (σ i) := by
  rcases kind_of_indexed hf with hk | hk <;>
    simp only [value?, hk, hf, he, mapM_eq_some hkey, hi, Except.toOption, Option.bind_eq_bind,
      Option.bind_some] <;> rfl

theorem value?_measure {μ : Measure α} (hμ : m.measure ref = .ok μ)
    (hrank : μ.function.rank < ref.rank) {terms : List α}
    (hterms : List.Forall₂ (fun (row : α × Nat) term => ∃ node rounded x,
      μ.data.node? row.2 = some node ∧ m.rounded? μ.data.parameters node = some rounded ∧
        m.value? vars σ μ.function (v.override μ.data.parameters rounded) = some x ∧
          row.1 * μ.data.weight.at node * x = term) μ.data.coefficients.zipIdx terms) :
    m.value? vars σ ref v = some (Scalar.sum terms) := by
  have hk := (measure_eq_ok.1 hμ).2.1
  rw [value?, hk]
  simp only [hμ, Except.toOption, Option.bind_eq_bind, Option.bind_some, dif_pos hrank]
  rw [mapM_eq_some (hterms.imp ?_), Option.bind_some]
  · rfl
  · rintro ⟨coefficient, k⟩ term ⟨node, rounded, x, hnode, hrounded, hx, rfl⟩
    simp only [hnode, hrounded, hx, Option.bind_some]
    rfl

end Model

/-! ## Points and weights of a measure -/

namespace MeasureData

variable {data : MeasureData α} {points : List (List α)}

/-- The points that are computed are those of the data, if its rows are as long as they should
be. -/
theorem points_eq_ok (hshape : data.WellShaped) (hpoints : data.points = .ok points) :
    List.Forall₂ (fun k point => data.node? k = some point) (List.range data.coefficients.length)
      points := by
  unfold MeasureData.points at hpoints
  split at hpoints
  · rename_i hpointwise
    rw [Except.pure_eq_ok] at hpoints
    subst hpoints
    rw [size, List.forall₂_map_right_iff, List.forall₂_same]
    intro k hk
    have hk : k < data.coefficients.length := List.mem_range.1 hk
    refine mapM_eq_some ?_
    rw [List.forall₂_map_right_iff, List.forall₂_same]
    intro row hrow
    -- there is a point, so each of its axes has length one
    have hinner : data.inner.prod = 1 := by
      rw [isPointwise, Bool.or_eq_true] at hpointwise
      refine List.prod_eq_one fun n hn => ?_
      rcases hpointwise with hsize | hall
      · exact absurd (of_decide_eq_true hsize) (by rw [size]; omega)
      · exact of_decide_eq_true (List.all_eq_true.1 hall n hn)
    have hlt : k < row.length := by rw [hshape.columns row hrow, hinner]; omega
    rw [List.getD_eq_getElem?_getD, List.getElem?_eq_getElem hlt, Option.getD_some]
  · cases hpoints

/-- The weights that are computed are coefficients times weights. -/
theorem weights_eq_ok {weights : List α} (hweights : data.weights = .ok weights)
    (hpoints : data.points = .ok points) :
    weights = List.zipWith (fun coefficient point => coefficient * data.weight.at point)
      data.coefficients points := by
  have hlength : points.length = data.coefficients.length := by
    unfold MeasureData.points at hpoints
    split at hpoints
    · rw [Except.pure_eq_ok] at hpoints
      rw [← hpoints, List.length_map, List.length_range, size]
    · cases hpoints
  unfold MeasureData.weights at hweights
  split at hweights
  · rename_i c hc
    rw [Except.pure_eq_ok] at hweights
    rw [← hweights, hc]
    refine List.ext_getElem (by simp [hlength]) fun k _ _ => ?_
    rw [List.getElem_map, List.getElem_zipWith]
    rfl
  · rename_i f hf
    simp only [hpoints, Except.bind_eq_ok, Except.ok.injEq, exists_eq_left', Except.pure_eq_ok]
      at hweights
    rw [← hweights, hf]
    rfl

end MeasureData

/-- Points are rounded parameter by parameter. -/
theorem Model.rounded?_of_digits {m : Model α} {parameters : List Ref} {digits : List Int}
    (hdigits : List.Forall₂ (fun p d => ∃ q, m.parameter (.given p) = .ok q ∧ q.digits = d)
      parameters digits) {point rounded : List α}
    (hrounded : (digits.zip point).mapM (fun (d, x) => roundTo d x) = .ok rounded) :
    m.rounded? parameters point = some rounded := by
  refine mapM_eq_some ?_
  rw [Except.mapM_eq_ok] at hrounded
  induction hdigits generalizing point rounded with
  | nil =>
    cases hrounded
    exact .nil
  | cons hd _ ih =>
    cases point with
    | nil =>
      cases hrounded
      exact .nil
    | cons x rest =>
      obtain ⟨q, hq, rfl⟩ := hd
      cases hrounded with
      | cons hx hrest =>
        refine .cons ?_ (ih hrest)
        simp only [hq, Except.toOption, Option.bind_eq_bind, Option.bind_some] at hx ⊢
        rw [hx]

/-- What a transcription reads of a measure: the rounded points, each with its coefficient times
its weight. -/
theorem Building.forall₂_counted {m : Model α} {data : MeasureData α} (hshape : data.WellShaped)
    {weights : List α} {points : List (List α)} (hweights : data.weights = .ok weights)
    (hpoints : roundedPoints m data = .ok points) :
    List.Forall₂ (fun (row : α × Nat) (counted : List α × α) => ∃ node,
      data.node? row.2 = some node ∧ m.rounded? data.parameters node = some counted.1 ∧
        counted.2 = row.1 * data.weight.at node) data.coefficients.zipIdx (points.zip weights) := by
  simp only [roundedPoints, Except.bind_eq_ok, Except.mapM_eq_ok, Except.pure_eq_ok] at hpoints
  obtain ⟨digits, hdigits, nodes, hnodes, hrounded⟩ := hpoints
  obtain rfl := MeasureData.weights_eq_ok hweights hnodes
  have hlist := MeasureData.points_eq_ok hshape hnodes
  have hlength : nodes.length = data.coefficients.length := by
    rw [← hlist.length_eq, List.length_range]
  refine List.forall₂_iff_get.2 ⟨by simp [← hrounded.length_eq, hlength], fun k hk hk' => ?_⟩
  have hk : k < data.coefficients.length := by simpa using hk
  simp only [List.get_eq_getElem, List.getElem_zipIdx, List.getElem_zip, List.getElem_zipWith,
    Nat.zero_add]
  refine ⟨nodes[k], ?_, Model.rounded?_of_digits hdigits ?_, rfl⟩
  · simpa using (List.forall₂_iff_get.1 hlist).2 k (by simpa using hk) (hlength ▸ hk)
  · exact (Except.mapM_eq_ok.2 ((List.forall₂_iff_get.1 hrounded).2 k (hlength ▸ hk) _))

/-! ## Expressions have the values of their objects -/

namespace Valuation

omit [Scalar α]

/-- Values of a key are found as the coordinates of a point are. -/
theorem ofKey_eq_get? (parameters : List Ref) (key : List α) (p : Ref) :
    ofKey parameters key p = Point.get? (parameters.zip key) p := by
  rw [ofKey]
  generalize parameters.zip key = point
  induction point with
  | nil => rfl
  | cons row rest ih =>
    rw [List.lookup_cons, Point.get?_cons, ih]
    by_cases hp : row.1 = p
    · simp [hp]
    · rw [if_neg hp, beq_false_of_ne (Ne.symm hp)]

/-- The parameters of a key have its values, as far as it gives them. -/
theorem ofKey_of_key {parameters inner : List Ref} {key innerKey : List α}
    (h : (Point.key (parameters.zip key) inner : Except (Error α) _) = .ok innerKey) :
    List.Forall₂ (fun p x => ofKey parameters key p = some x) inner innerKey :=
  (Point.key_eq_ok.1 h).imp fun p _ hx => (ofKey_eq_get? parameters key p).trans hx

/-- Values agree with a key in what an override leaves alone. -/
theorem override_of_key {v : Valuation α} {parameters measured : List Ref} {key values : List α}
    (hkey : List.Forall₂ (fun p x => v p = some x) parameters key) {p : Ref} {x : α}
    (h : (Point.override (parameters.zip key) measured values).get? p = some x) :
    v.override measured values p = some x := by
  rw [Point.override, Point.get?_append, Option.or_eq_some_iff, ← ofKey_eq_get?] at h
  rw [override, Option.or_eq_some_iff]
  exact h.imp id fun hkept => ⟨hkept.1, (List.forall₂_iff_zip.1 hkey).2 (Point.mem_of_get? hkept.2)⟩

end Valuation

namespace Building

open Transcription

variable {m : Model α} {t : Transcription α (Coordinate α)} {verbose : Bool}

/-- The expression has the value of the object wherever the parameters of the object have the values
of the key. -/
def Denotes (m : Model α) (vars : Entries α Nat) (ref : Ref) (key : List α) (e : Expression α) :
    Prop :=
  ∀ (v : Valuation α) parameters, m.functionParameters ref = .ok parameters →
    List.Forall₂ (fun p x => v p = some x) parameters key →
      ∀ σ, m.value? vars σ ref v = some (e.eval σ)

variable [ExactScalar α]

/-- The sum of a measure has the value of the measure. -/
theorem denotes_measure {vars : Entries α Nat} {ref : Ref} {μ : Measure α} {parameters : List Ref}
    {key weights : List α} {points : List (List α)} {parts : List (Expression α)}
    (hμ : m.measure ref = .ok μ) (hshape : μ.data.WellShaped)
    (hrank : μ.function.rank < ref.rank) (hf : m.functionParameters ref = .ok parameters)
    (hweights : μ.data.weights = .ok weights) (hpoints : roundedPoints m μ.data = .ok points)
    (hparts : List.Forall₂ (fun (row : List α × α) part => ∃ inner innerKey,
      m.functionParameters μ.function = .ok inner ∧
      (Point.override (parameters.zip key) μ.data.parameters row.1).key inner =
        (.ok innerKey : Except (Error α) (List α)) ∧ Denotes m vars μ.function innerKey part)
      (points.zip weights) parts) :
    Denotes m vars ref key (.weightedSum (((points.zip weights).map (·.2)).zip parts)) := by
  intro v parameters' hf' hkey σ
  rw [hf, Except.ok.injEq] at hf'
  subst hf'
  rw [Expression.eval_weightedSum]
  refine Model.value?_measure hμ hrank ?_
  have hcounted := forall₂_counted hshape hweights hpoints
  generalize μ.data.coefficients.zipIdx = rows at hcounted ⊢
  generalize points.zip weights = counted at hcounted hparts ⊢
  -- each point is read, rounded and counted as the meaning of the measure says
  induction hcounted generalizing parts with
  | nil =>
    cases hparts
    exact .nil
  | cons hrow _ ih =>
    cases hparts with
    | cons hpart hrest =>
      obtain ⟨node, hnode, hrounded, hcount⟩ := hrow
      obtain ⟨inner, innerKey, hinner, hinnerKey, hdenotes⟩ := hpart
      refine .cons ⟨node, _, _, hnode, hrounded, hdenotes _ inner hinner ?_ σ, ?_⟩ (ih hrest)
      · -- overriding the key or the values gives the function the same values
        exact (Point.key_eq_ok.1 hinnerKey).imp fun _ _ => Valuation.override_of_key hkey
      · exact congrArg (· * _) hcount.symm

/-- Expressions of a transcription have the values of their objects. -/
theorem respects_denotes (hs : m.Sound) (hd : m.Defined) (hg : m.OnGrid)
    (h : LaidOut m verbose t) :
    Respects m t.vars (Denotes m (t.vars.mapKeys (·.value))) where
  parameter ref x hk v parameters hf hkey σ := by
    rw [Model.functionParameters_eq_ok.2 (.inl ⟨hk, rfl⟩), Except.ok.injEq] at hf
    subst hf
    cases hkey with
    | cons hx _ => rw [Model.value?_parameter hk, hx, Expression.eval_const]
  single ref i hk hi v parameters _ _ σ := by
    rw [Expression.eval_ofVariable]
    have he : (t.vars.mapKeys (·.value)).get? ref = some (Entry.single (κ := α) i) :=
      Entries.get?_mapKeys_of_some _ hi
    rcases hk with hk | hk
    · exact Model.value?_finiteVariable hk he
    · obtain ⟨v, hv⟩ : ∃ v, m.pointVariable ref = .ok v := by
        by_contra hnone
        -- a reference to nothing has no entry
        have := h.others ref (fun href => Model.kind_ne_of_mem_owners href hk)
          fun v hv => hnone ⟨v, hv⟩
        rw [hi] at this
        cases this
      obtain ⟨e, j, he', hget, hj⟩ := h.point hs hd hg hv
      rw [he, Option.some.injEq] at hj
      cases hj
      exact Model.value?_pointVariable hv he' hget
  indexed ref name parameters e key i hi honGrid he hget v parameters' hf hkey σ := by
    rw [Model.functionParameters_eq_ok.2 (.inr (.inr (.inr ⟨name, hi⟩))), Except.ok.injEq] at hf
    subst hf
    rw [Expression.eval_ofVariable]
    exact Model.value?_indexed hi (Entries.get?_mapKeys_of_some _ he) hkey
      ((Model.get?_mapKeys hd (h.onGridKey hd hi he) honGrid).trans hget)
  measure ref μ parameters key weights points parts hμ hrank hf _ hweights hpoints hparts :=
    denotes_measure hμ (hs.measure _ μ (Model.measure_eq_ok.1 hμ).2.2).2.1 hrank hf hweights hpoints
      hparts
  congr ref key key' e hbeq hgood := by
    have := ExactScalar.lawfulBEq (α := α)
    rwa [← eq_of_beq hbeq]

end Building

/-! ## Constraints -/

/-- A key satisfies every restriction on one of its parameters. -/
def Constraint.Admits (c : Constraint α) (parameters : List Ref) (key : List α) : Prop :=
  ∀ restriction ∈ c.restrictions, ∀ x ∈ Valuation.ofKey parameters key restriction.1,
    restriction.2.1 ≤ x ∧ x ≤ restriction.2.2

instance (c : Constraint α) (parameters : List Ref) : DecidablePred (c.Admits parameters) :=
  fun key => inferInstanceAs (Decidable (∀ restriction ∈ c.restrictions,
    ∀ x ∈ Valuation.ofKey parameters key restriction.1,
      restriction.2.1 ≤ x ∧ x ≤ restriction.2.2))

/-- The finite constraints of a constraint stand at the keys that satisfy its restrictions. Each has
the relation of the constraint, and between its sides the difference that the values of the terms
make, so it holds for an assignment just if the constraint does. -/
structure Faithful (m : Model α) (t : Transcription α) (c : Constraint α) (parameters : List Ref)
    (e : Entry α Nat) : Prop where
  spans : e.parameters = parameters
  keys : e.keys = (m.grid parameters).filter fun key => c.Admits parameters key
  meaning : ∀ key i, (key, i) ∈ e.rows → ∃ f, t.finite.constraints[i]? = some f ∧
    f.sense = c.sense ∧ ∀ σ, ∃ total, m.sum? t.vars σ c.terms (.ofKey parameters key) = some total ∧
      f.body.eval σ - f.rhs = total - c.rhs ∧ (f.holds σ ↔ c.sense.holds total c.rhs)

section Constraints

variable {m : Model α} {c : Constraint α} {parameters : List Ref}

/-- Restrictions look at the numbers of a key. -/
theorem satisfies_eq_admits (c : Constraint α) (parameters : List Ref)
    (key : List (Coordinate α)) : Point.satisfies (parameters.zip key) c.restrictions =
      decide (c.Admits parameters (key.map (·.value))) := by
  have hget : ∀ p, Valuation.ofKey parameters (key.map (·.value)) p =
      (Point.get? (parameters.zip key) p).map (·.value) := fun p => by
    rw [Valuation.ofKey_eq_get?, ← Building.map_value_zip, Point.get?_map]
  rw [Bool.eq_iff_iff, decide_eq_true_iff, Point.satisfies, List.all_eq_true]
  refine forall₂_congr fun restriction _ => ?_
  rw [hget]
  cases hp : Point.get? (parameters.zip key) restriction.1 <;> simp [hp, Scalar.between]

variable [ExactScalar α]

/-- The value of the sum of a constraint. -/
theorem sum?_of_goodAt {vars : Entries α Nat} {key : List (Coordinate α)}
    {parts : List (Expression α)} (h : List.Forall₂ (fun (term : α × Ref) part =>
      Building.GoodAt m (Building.Denotes m vars) term.2 (parameters.zip key) part) c.terms parts)
    (σ : Int → α) : m.sum? vars σ c.terms (.ofKey parameters (key.map (·.value))) =
      some (Expression.eval σ (.weightedSum ((c.terms.map (·.1)).zip parts))) := by
  rw [Model.sum?, Expression.eval_weightedSum, mapM_eq_some ?_]
  · rfl
  · generalize c.terms = terms at h ⊢
    induction h with
    | nil => exact .nil
    | cons hpart _ ih =>
      refine .cons ?_ ih
      obtain ⟨inner, innerKey, hinner, hinnerKey, hgood⟩ := hpart.values
      rw [Building.map_value_zip] at hinnerKey
      dsimp only
      rw [hgood _ inner hinner (Valuation.ofKey_of_key hinnerKey) σ]
      rfl

/-- A constraint whose keys have their finite constraints keeps its meaning. -/
theorem faithful_of_rendered {ref : Ref} {t : Transcription α (Coordinate α)}
    (h : Building.Rendered m (Building.Denotes m (t.vars.mapKeys (·.value))) ref c parameters
      (m.gridKeys parameters) t) :
    ∃ e, (t.mapKeys (·.value)).constraints.get? ref = some e ∧
      Faithful m (t.mapKeys (·.value)) c parameters e := by
  obtain ⟨e, he, hparameters, hrows⟩ := h.entry
  refine ⟨e.mapKeys (·.value), ?_, hparameters, ?_, ?_⟩
  · exact Entries.get?_mapKeys_of_some _ he
  · have hkeys := Building.map_fst_of_renders hrows
    calc (e.mapKeys (·.value)).keys
      _ = (e.rows.map (·.1)).map (List.map (·.value)) := Entry.keys_mapKeys _ e
      _ = ((m.gridKeys parameters).filter fun key =>
          c.Admits parameters (key.map (·.value))).map (List.map (·.value)) := by
        rw [hkeys, Building.admitted]
        simp only [satisfies_eq_admits]
      _ = (m.grid parameters).filter fun key => c.Admits parameters key := by
        rw [← Model.map_value_gridKeys, List.filter_map]
        rfl
  · intro key i hrow
    obtain ⟨⟨k, j⟩, hmem, hrow⟩ := List.mem_map.1 hrow
    cases hrow
    obtain ⟨k', -, hrenders⟩ := exists_left_of_mem hrows hmem
    -- the row was rendered at its own key
    obtain rfl : k = k' := hrenders.same
    obtain ⟨name, parts, sum, hparts, hsum, hfinite⟩ := hrenders.body
    refine ⟨_, hfinite, rfl, fun σ => ⟨sum.eval σ, ?_, ?_, ?_⟩⟩
    · rw [hsum]
      exact sum?_of_goodAt hparts σ
    · let _ := ExactScalar.commRing (α := α)
      rw [← Expression.eval_terms_add_constant σ sum, sub_sub_eq_add_sub]
    · rw [FiniteConstraint.holds, Sense.holds_sub, Expression.eval_terms_add_constant]

/-- A transcription keeps the meaning of every constraint. -/
theorem faithful_of_transcribe (hs : m.Sound) (hg : m.OnGrid) {verbose : Bool}
    {t : Transcription α} (ht : m.transcribe verbose = .ok t) {ref : Ref}
    (hc : m.constraint ref = .ok c) : ∃ parameters e, m.parametersOf ref = .ok parameters ∧
      t.constraints.get? ref = some e ∧ Faithful m t c parameters e := by
  have hd : m.Defined := .of_exact m
  obtain ⟨t', hrun, rfl⟩ := Model.transcribe_eq_ok.1 ht
  have hends := Building.ends_run_of_respects hs hd hg verbose
    (fun vars => Building.Denotes m (vars.mapKeys (·.value)))
    fun _ hlaid => Building.respects_denotes hs hd hg hlaid
  obtain ⟨-, hconstrained, -⟩ := hends.of_ok hrun
  obtain ⟨parameters, hp, hrendered⟩ :=
    hconstrained ref (Model.mem_liveRefs_constraint.2 ⟨c, hc⟩) c hc
  obtain ⟨e, he, hfaithful⟩ := faithful_of_rendered hrendered
  exact ⟨parameters, e, hp, he, hfaithful⟩

end Constraints

/-! ## Built models -/

/-- A successful build of any model that comes about by requests keeps the meaning of every
constraint, if point variables and measures lie on the grid. -/
theorem faithful_of_build [ExactScalar α] {m : Model α} (h : Requested m) {e : Environment α}
    {verbose : Option Bool} {t : Transcription α} {w' : Workspace α}
    (hbuild : Transcription.build verbose ⟨e, m⟩ = .ok t w') (hg : w'.model.OnGrid) {ref : Ref}
    {c : Constraint α} (hc : w'.model.constraint ref = .ok c) :
    ∃ parameters e, w'.model.parametersOf ref = .ok parameters ∧
      t.constraints.get? ref = some e ∧ Faithful w'.model t c parameters e := by
  obtain ⟨w₁, -, -, ⟨verbose', ht⟩, hmodel⟩ := exists_of_build hbuild
  have htranscribe : w'.model.transcribe verbose' = .ok t := by
    rw [hmodel, Model.transcribe_markReady, ht]
  exact faithful_of_transcribe (h.build hbuild).sound hg htranscribe hc

/-- A mean with the weight `1 + 2 s` is at most one plus the parameter beside it, on the upper half
of the interval. Its first point is rounded to a single digit, while its weight is that of the point
as given: with every finite variable at its own position, the sum at `1 / 2` is
`1 / 2 * (1 + 0.52) * 4 + 1 / 2 * (1 + 2) * 5 - 1 / 2`. -/
theorem faithful_of_build_mean :
    let p : Ref := ⟨0, .parameter, 1⟩
    let q : Ref := ⟨0, .parameter, 2⟩
    let x : Ref := ⟨0, .infiniteVariable, 1⟩
    let mean : Ref := ⟨0, .measure, 1⟩
    let ref : Ref := ⟨0, .constraint, 1⟩
    let data : MeasureData ℚ :=
      ⟨[q], [1 / 2, 1 / 2], [[13 / 50, 1]], [], .uniformGrid, .affine [1, 2], "mean"⟩
    let m : Model ℚ := Request.replay { id := 0 }
      [.addParameter (.scalar (.interval 0 1)) "t" (some [0, 1 / 2, 1]) 0 (some 6)
        (.finiteDifference .backward),
      .addParameter (.scalar (.interval 0 1)) "s" (some [0, 1]) 0 (some 1)
        (.finiteDifference .backward),
      .addInfiniteVariable "x" [.given p, .given q] none none .none false,
      .addMeasure (.given x) data ⟨rfl, by decide⟩ "mean",
      .addConstraint [(1, .given mean), (-1, .given p)] "<=" 1 "cap" [(.given p, (1 / 2, 1))]]
    Requested m ∧ ∃ t w' c, Transcription.build none ⟨{}, m⟩ = .ok t w' ∧ w'.model.OnGrid ∧
      w'.model.constraint ref = .ok c ∧ ∃ parameters e,
        w'.model.parametersOf ref = .ok parameters ∧ t.constraints.get? ref = some e ∧
          e.rows = [([1 / 2], 0), ([1], 1)] ∧
          w'.model.sum? t.vars (fun i => i) c.terms (.ofKey [p] [1 / 2]) = some (251 / 25) ∧
          (t.finite.constraints[0]?.map fun f => (f.body.terms, f.rhs)) =
            some ([(4, 19 / 25), (5, 3 / 2)], 3 / 2) ∧
          Faithful w'.model t c parameters e := by
  intro p q x mean ref data m
  have hr : Requested m := .replay (.start 0 "model") _
  have hbuild : (match Transcription.build none ⟨{}, m⟩ with
    | .ok t w' => w'.model.isUnderived && (w'.model.constraint ref).toOption.any fun c =>
        decide ((t.constraints.get? ref).map (·.rows) = some [([1 / 2], 0), ([1], 1)] ∧
          w'.model.sum? t.vars (fun i => i) c.terms (.ofKey [p] [1 / 2]) = some (251 / 25) ∧
          (t.finite.constraints[0]?.map fun f => (f.body.terms, f.rhs)) =
            some ([(4, 19 / 25), (5, 3 / 2)], 3 / 2))
    | .error _ _ => false) = true := by decide +kernel
  split at hbuild
  · rename_i t w' hb
    rw [Bool.and_eq_true] at hbuild
    obtain ⟨c, hc, hrows, hsum, hfinite⟩ := Except.exists_of_decide _ hbuild.2
    have hg : w'.model.OnGrid :=
      onGrid_of_build hr hb (.of_exact _) (Model.labelsApart_of_underived hbuild.1)
    obtain ⟨parameters, e, hp, he, hfaithful⟩ := faithful_of_build hr hb hg hc
    rw [he, Option.map_some, Option.some.injEq] at hrows
    exact ⟨hr, t, w', c, hb, hg, hc, parameters, e, hp, he, hrows, hsum, hfinite, hfaithful⟩
  · cases hbuild

end Discretization
