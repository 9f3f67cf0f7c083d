import Discretization.Proofs.Layouts
import Mathlib.Algebra.BigOperators.Group.List.Basic

/-!
# Expressions of a Transcription

After the variables are laid out, every later pass asks for expressions at keys on the grid only.
Such an expression refers to variables that are there, so the layout stays as it is; what grows are
the remembered expressions of measures and the reduced variables. What is said of expressions here
is stated for any property that is built up along the nesting of measures: it holds of what the
builder gives back and of everything it remembers.

## Main definitions

* `Building.Frozen`: nothing but remembered expressions and reduced variables changed;
* `Building.Respects`: a property of expressions that is built up along the nesting of measures;
* `Building.Stable`: a layout with remembered expressions that have the property.

## Main results

* `Building.ends_expression`: the expression of an object at a point on the grid has the property,
  and the layout is kept;
* `Building.ends_combination`: the same for a sum of coefficients times objects.
-/

namespace Discretization

/-! ## Points -/

namespace Point

variable {α κ : Type} {point : Point κ} {p : Ref} {c : κ} {parameters : List Ref}

theorem mem_of_get? (h : point.get? p = some c) : (p, c) ∈ point := by
  rw [get?, Option.map_eq_some_iff] at h
  obtain ⟨⟨r, c'⟩, hfind, rfl⟩ := h
  have hr : r = p := of_decide_eq_true (by simpa using List.find?_some hfind)
  exact hr ▸ List.mem_of_find?_eq_some hfind

theorem get?_cons (r : Ref) (c : κ) (point : Point κ) (p : Ref) :
    Point.get? ((r, c) :: point) p = if r = p then some c else point.get? p := by
  rw [get?, List.find?_cons]
  by_cases h : r = p <;> simp [h, get?]

theorem get?_append (point other : Point κ) (p : Ref) :
    Point.get? (point ++ other) p = (point.get? p).or (other.get? p) := by
  rw [get?, get?, get?, List.find?_append]
  cases point.find? (·.1 = p) <;> rfl

/-- A key has the coordinates of the parameters. -/
theorem key_eq_ok {key : List κ} :
    (point.key parameters : Except (Error α) (List κ)) = .ok key ↔
      List.Forall₂ (fun p c => point.get? p = some c) parameters key := by
  rw [Point.key, Except.mapM_eq_ok]
  constructor
  all_goals
    refine fun h => h.imp fun p c hc => ?_
    cases hp : point.get? p with
    | some d => simpa [hp] using hc
    | none => simp [hp] at hc

/-- A point with its coordinates replaced by their images. -/
theorem get?_map {ι : Type} (f : κ → ι) (point : Point κ) (p : Ref) :
    Point.get? (point.map fun (r, c) => (r, f c)) p = (point.get? p).map f := by
  rw [get?, get?, List.find?_map, Option.map_map, Option.map_map]
  rfl

/-- What is found after an override: one of the new coordinates, or the old one of a parameter that
has no new one. -/
theorem get?_override {coordinates : List κ} (hlength : coordinates.length = parameters.length)
    (h : (point.override parameters coordinates).get? p = some c) :
    (p, c) ∈ parameters.zip coordinates ∨ p ∉ parameters ∧ point.get? p = some c := by
  rw [override, get?_append] at h
  cases hnew : Point.get? (parameters.zip coordinates) p with
  | some d =>
    rw [hnew, Option.some_or] at h
    cases h
    exact .inl (mem_of_get? hnew)
  | none =>
    rw [hnew, Option.none_or] at h
    refine .inr ⟨fun hp => ?_, h⟩
    rw [get?, Option.map_eq_none_iff, List.find?_eq_none] at hnew
    obtain ⟨i, hi, rfl⟩ := List.mem_iff_getElem.1 hp
    exact hnew (parameters[i], coordinates[i]) (List.mem_iff_getElem.2
      ⟨i, by simpa [hlength] using hi, by simp⟩) (by simp)

end Point

namespace Model

variable {α : Type} [Scalar α] {m : Model α} {parameters : List Ref} {point : Point (Coordinate α)}

/-- Every coordinate of the point lies on the axis of its parameter. -/
def OnGridPoint (m : Model α) (point : Point (Coordinate α)) : Prop :=
  ∀ p c, point.get? p = some c → Coordinate.OnAxis (m.axis p) c

/-- The coordinates of a key on the grid. -/
theorem onGridPoint_zip {key : List (Coordinate α)} (h : m.OnGridKey parameters key) :
    m.OnGridPoint (parameters.zip key) :=
  fun _ _ hc => (List.forall₂_iff_zip.1 h).2 (Point.mem_of_get? hc)

/-- A point on the grid stays there if some of its coordinates are replaced by values on their
axes. -/
theorem OnGridPoint.override (h : m.OnGridPoint point) {measured : List Ref} {values : List α}
    (hvalues : List.Forall₂ (fun p x => ∃ y ∈ m.axis p, (y == x) = true) measured values) :
    m.OnGridPoint (point.override measured (Coordinate.ofValues values)) := by
  intro p c hc
  have hkey := onGridKey_ofValues hvalues
  rcases Point.get?_override hkey.length_eq.symm hc with hmem | ⟨-, hc⟩
  · exact (List.forall₂_iff_zip.1 hkey).2 hmem
  · exact h p c hc

/-- The coordinates of a point on the grid make a key on the grid. -/
theorem OnGridPoint.key (h : m.OnGridPoint point) {key : List (Coordinate α)}
    (hk : (point.key parameters : Except (Error α) _) = .ok key) : m.OnGridKey parameters key :=
  (Point.key_eq_ok.1 hk).imp h

end Model

/-- A sum of coefficients times expressions. -/
def Expression.weightedSum {α : Type} [Scalar α] (rows : List (α × Expression α)) : Expression α :=
  rows.foldl (fun sum row => sum.add row.2 row.1) .zero

theorem Expression.weightedSum_append {α : Type} [Scalar α] (rows : List (α × Expression α))
    (row : α × Expression α) :
    weightedSum (rows ++ [row]) = (weightedSum rows).add row.2 row.1 := by
  rw [weightedSum, List.foldl_append]
  rfl

namespace Building

open Transcription

variable {α : Type} [Scalar α] {m : Model α} {t : Transcription α (Coordinate α)} {ref : Ref}
  {parameters : List Ref} {verbose : Bool} {fail : Transcription α (Coordinate α) → Prop}

/-! ## What later passes read -/

/-- Nothing but remembered expressions and reduced variables changed. -/
structure Frozen (t t' : Transcription α (Coordinate α)) : Prop where
  snapshot : t'.snapshot = t.snapshot
  naming : t'.verbose = t.verbose
  finite : t'.finite = t.finite
  vars : t'.vars = t.vars
  constraints : t'.constraints = t.constraints
  evaluations : t'.evaluations = t.evaluations

omit [Scalar α] in
theorem Frozen.refl (t : Transcription α (Coordinate α)) : Frozen t t :=
  ⟨rfl, rfl, rfl, rfl, rfl, rfl⟩

omit [Scalar α] in
theorem Frozen.trans {t t' t'' : Transcription α (Coordinate α)} (h : Frozen t t')
    (h' : Frozen t' t'') : Frozen t t'' :=
  ⟨h'.snapshot.trans h.snapshot, h'.naming.trans h.naming, h'.finite.trans h.finite,
    h'.vars.trans h.vars, h'.constraints.trans h.constraints, h'.evaluations.trans h.evaluations⟩

/-- A layout depends on the finite variables, their entries and the supports only. -/
theorem LaidOut.of_eq {t' : Transcription α (Coordinate α)} (h : LaidOut m verbose t)
    (hsnapshot : t'.snapshot = t.snapshot) (hnaming : t'.verbose = t.verbose)
    (hfinite : t'.finite.vars = t.finite.vars) (hvars : t'.vars = t.vars) :
    LaidOut m verbose t' where
  snapshot := hsnapshot.trans h.snapshot
  naming := hnaming.trans h.naming
  finite := hfinite.trans h.finite
  entries := by rw [hvars]; exact h.entries
  points := by rw [hvars]; exact h.points
  others := by rw [hvars]; exact h.others

theorem LaidOut.of_frozen {t' : Transcription α (Coordinate α)} (h : LaidOut m verbose t)
    (hf : Frozen t t') : LaidOut m verbose t' :=
  h.of_eq hf.snapshot hf.naming (by rw [hf.finite]) hf.vars

/-- The variable at a key on the grid is there. -/
theorem LaidOut.ends_variableAt (h : LaidOut m verbose t) {name : String}
    (hi : m.indexed ref = .ok (name, parameters)) {key : List (Coordinate α)}
    (hk : m.OnGridKey parameters key) :
    Ends (variableAt m ref key) t (fun i t' => t' = t ∧ ∃ e, t.vars.get? ref = some e ∧
      e.get? key = some i) fail := by
  obtain ⟨before, after, hsplit⟩ :=
    List.append_of_mem (Model.mem_owners.2 (.inr ⟨name, parameters, hi⟩))
  have he := h.entries before ref after hsplit
  obtain ⟨i, hget⟩ := Model.exists_get?_ownEntry ref
    (by rw [Model.spanned_of_indexed hi]; exact hk) (m.start before)
  rw [ends_variableAt_of_get? hi he hget]
  exact ⟨rfl, _, he, hget⟩

/-- The variable of a finite or point variable is there. -/
theorem LaidOut.ends_singleVariable (h : LaidOut m verbose t)
    (hk : ref.kind = .finiteVariable ∨ ref.kind = .pointVariable) :
    Ends (singleVariable m ref) t (fun i t' => t' = t ∧ t.vars.get? ref = some (.single i))
      fun _ => True := by
  by_cases hpoint : ∃ v, m.pointVariable ref = .ok v
  · obtain ⟨v, hv⟩ := hpoint
    obtain ⟨e, i, -, -, he⟩ := h.points ref v hv
    rw [ends_singleVariable_some he]
    exact ⟨rfl, he⟩
  by_cases hfinite : ∃ v, m.finiteVariable ref = .ok v
  · obtain ⟨v, hv⟩ := hfinite
    obtain ⟨before, after, hsplit⟩ := List.append_of_mem (Model.mem_owners.2 (.inl ⟨v, hv⟩))
    have he : t.vars.get? ref = some (.single (m.start before)) := by
      rw [h.entries before ref after hsplit, Model.ownEntry, Model.spanned_of_finite hv]
      rfl
    rw [ends_singleVariable_some he]
    exact ⟨rfl, he⟩
  · -- an object that is not live has no entry, and making one fails
    have hnone : t.vars.get? ref = none := by
      refine h.others ref (fun href => ?_) fun v hv => hpoint ⟨v, hv⟩
      rcases Model.mem_owners.1 href with hv | ⟨name, parameters, hi⟩
      · exact hfinite hv
      · rcases Model.kind_of_indexed hi with hk' | hk' <;> rw [hk'] at hk <;>
          simp at hk
    unfold singleVariable
    rw [ends_bind, ends_variableEntry_none hnone]
    simp only [Entry.isFinite, List.isEmpty_nil]
    split
    · rw [ends_bind, ends_check]
      exact ⟨fun v hv => absurd ⟨v, hv⟩ hpoint, fun _ _ => trivial⟩
    · rw [ends_bind, ends_check]
      exact ⟨fun v hv => absurd ⟨v, hv⟩ hfinite, fun _ _ => trivial⟩

/-! ## Points of a measure -/

/-- A row of pointwise measure data has one value for each point. -/
theorem mem_of_getD {row : List α} {k : Nat} (hk : k < row.length) : row.getD k 0 ∈ row := by
  rw [List.getD_eq_getElem?_getD, List.getElem?_eq_getElem hk, Option.getD_some]
  exact List.getElem_mem hk

/-- The points of measure data take their values from the rows of the parameters. -/
theorem points_of_wellShaped {data : MeasureData α} (hdata : data.WellShaped)
    {points : List (List α)} (hp : data.points = .ok points) :
    ∀ point ∈ points, List.Forall₂ (fun x row => x ∈ row) point data.supports := by
  unfold MeasureData.points at hp
  split at hp
  · rename_i hpointwise
    rw [Except.pure_eq_ok] at hp
    subst hp
    intro point hpoint
    obtain ⟨k, hk, rfl⟩ := List.mem_map.1 hpoint
    rw [List.mem_range] at hk
    rw [List.forall₂_map_left_iff, List.forall₂_same]
    intro row hrow
    refine mem_of_getD ?_
    rw [hdata.columns row hrow]
    -- the points of pointwise data have no axes of their own
    have hprod : data.size ≠ 0 → data.inner.prod = 1 := by
      intro hsize
      simp only [MeasureData.isPointwise, Bool.or_eq_true, decide_eq_true_eq, hsize, false_or,
        List.all_eq_true] at hpointwise
      exact List.prod_eq_one hpointwise
    rw [hprod (by omega), Nat.mul_one]
    exact hk
  · cases hp

/-- What holds of every rounded support of a measure holds of the rounded points, coordinate by
coordinate. -/
theorem forall₂_of_roundedPoints {P : Ref → α → Prop} {data : MeasureData α}
    (hdata : data.WellShaped)
    (hP : ∀ p row, (p, row) ∈ data.parameters.zip data.supports → ∀ x ∈ row, ∀ q,
      m.parameter (.given p) = .ok q → ∀ rounded, roundTo q.digits x = .ok rounded → P p rounded)
    {points : List (List α)} (hp : roundedPoints m data = .ok points) :
    ∀ values ∈ points, List.Forall₂ P data.parameters values := by
  simp only [roundedPoints, Except.bind_eq_ok, Except.mapM_eq_ok, Except.pure_eq_ok] at hp
  obtain ⟨digits, hdigits, unrounded, hunrounded, hrounded⟩ := hp
  intro values hvalues
  obtain ⟨point, hpoint, hround⟩ := exists_left_of_mem hrounded hvalues
  have hrows := points_of_wellShaped hdata hunrounded point hpoint
  have hlength := hdata.rows
  -- the parameters, their digits, the rows, the point and its rounding go side by side
  generalize data.parameters = ps at *
  generalize data.supports = rows at *
  clear hunrounded hpoint hrounded hvalues
  induction hdigits generalizing rows point values with
  | nil =>
    rw [List.zip_nil_left] at hround
    cases hround
    exact .nil
  | @cons p d ps digits hd _ ih =>
    obtain ⟨q, hq, rfl⟩ := hd
    cases hrows with
    | nil => cases hlength
    | @cons x row point rows hx hrest =>
      rw [List.zip_cons_cons] at hround
      cases hround with
      | cons hr hround =>
        refine .cons (hP p row (by simp) x hx q hq _ hr) (ih _ _ hround _ hrest ?_ ?_)
        · exact fun p' row' hrow' => hP p' row' (List.mem_cons_of_mem _ hrow')
        · simpa using hlength

/-- The rounded points of a measure lie on the axes of the measured parameters. -/
theorem onAxis_of_roundedPoints (hs : m.Sound) (hg : m.OnGrid) {μ : Measure α}
    (hμ : m.measure ref = .ok μ) {points : List (List α)}
    (hp : roundedPoints m μ.data = .ok points) :
    ∀ values ∈ points, List.Forall₂ (fun p x => ∃ y ∈ m.axis p, (y == x) = true)
      μ.data.parameters values := by
  obtain ⟨-, hdata, -⟩ := hs.measure _ μ (Model.measure_eq_ok.1 hμ).2.2
  exact forall₂_of_roundedPoints hdata (fun p row hrow x hx q hq rounded hr =>
    Model.mem_axis_of_contains hq (hg.measures ref μ hμ p row hrow q hq x hx rounded hr)) hp

/-! ## Properties of expressions -/

/-- A property of the expression of an object at the values of its parameters that is built up along
the nesting of measures, and does not tell equal values apart. -/
structure Respects (m : Model α) (vars : Entries (Coordinate α) Nat)
    (Good : Ref → List α → Expression α → Prop) : Prop where
  parameter : ∀ ref x, ref.kind = .parameter → Good ref [x] (.const x)
  single : ∀ ref i, ref.kind = .finiteVariable ∨ ref.kind = .pointVariable →
    vars.get? ref = some (.single i) → Good ref [] (.ofVariable i)
  indexed : ∀ ref name parameters e key i, m.indexed ref = .ok (name, parameters) →
    m.OnGridKey parameters key → vars.get? ref = some e → e.get? key = some i →
    Good ref (key.map (·.value)) (.ofVariable i)
  measure : ∀ ref μ parameters key weights points parts, m.measure ref = .ok μ →
    μ.function.rank < ref.rank → m.functionParameters ref = .ok parameters →
    key.length = parameters.length → μ.data.weights = .ok weights →
    roundedPoints m μ.data = .ok points →
    List.Forall₂ (fun (row : List α × α) part => ∃ inner innerKey,
      m.functionParameters μ.function = .ok inner ∧
      (Point.override (parameters.zip key) μ.data.parameters row.1).key inner =
        (.ok innerKey : Except (Error α) (List α)) ∧ Good μ.function innerKey part)
      (points.zip weights) parts →
    Good ref key (.weightedSum (((points.zip weights).map (·.2)).zip parts))
  congr : ∀ ref key key' e, (key == key') = true → Good ref key e → Good ref key' e

/-- Every remembered expression of a measure has the property. -/
def Remembers (m : Model α) (Good : Ref → List α → Expression α → Prop)
    (measures : Entries (Coordinate α) (Expression α)) : Prop :=
  ∀ ref e parameters, measures.get? ref = some e → m.functionParameters ref = .ok parameters →
    ∀ row ∈ e.rows, m.OnGridKey parameters row.1 ∧ Good ref (row.1.map (·.value)) row.2

/-- The variables are laid out, and every remembered expression has the property. -/
structure Stable (m : Model α) (verbose : Bool) (vars : Entries (Coordinate α) Nat)
    (Good : Ref → List α → Expression α → Prop) (t : Transcription α (Coordinate α)) : Prop where
  laid : LaidOut m verbose t
  vars : t.vars = vars
  remembers : Remembers m Good t.measures

/-- The expression of an object at a point has the property. -/
def GoodAt (m : Model α) (Good : Ref → List α → Expression α → Prop) (ref : Ref)
    (point : Point (Coordinate α)) (e : Expression α) : Prop :=
  ∃ parameters key, m.functionParameters ref = .ok parameters ∧
    (point.key parameters : Except (Error α) (List (Coordinate α))) = .ok key ∧
    Good ref (key.map (·.value)) e

variable {vars : Entries (Coordinate α) Nat} {Good : Ref → List α → Expression α → Prop}

theorem Stable.of_frozen {t' : Transcription α (Coordinate α)} (h : Stable m verbose vars Good t)
    (hf : Frozen t t') (hr : Remembers m Good t'.measures) : Stable m verbose vars Good t' :=
  ⟨h.laid.of_frozen hf, hf.vars.trans h.vars, hr⟩

/-- A sum of parts with the property, made one after the other. -/
theorem ends_sum {γ : Type} {xs : List γ} {weight : γ → α} {part : γ → Building α (Expression α)}
    {R : γ → Expression α → Prop} (h : Stable m verbose vars Good t)
    (hpart : ∀ x ∈ xs, ∀ t', Stable m verbose vars Good t' → Ends (part x) t'
      (fun e t'' => Stable m verbose vars Good t'' ∧ Frozen t' t'' ∧ R x e) fun _ => True) :
    Ends (xs.foldlM (fun (sum : Expression α) x => do
        let e ← part x
        return sum.add e (weight x)) .zero) t
      (fun e t' => Stable m verbose vars Good t' ∧ Frozen t t' ∧
        ∃ parts, List.Forall₂ R xs parts ∧ e = .weightedSum ((xs.map weight).zip parts))
      fun _ => True := by
  -- the sum of the parts that are gone
  refine Ends.foldlM (fun (gone : List γ) (sum : Expression α) t' =>
    Stable m verbose vars Good t' ∧ Frozen t t' ∧ ∃ parts, List.Forall₂ R gone parts ∧
      sum = .weightedSum ((gone.map weight).zip parts)) ⟨h, .refl t, [], .nil, rfl⟩ ?_
  rintro gone x rest sum t' rfl ⟨h', hf', parts, hparts, rfl⟩
  rw [ends_bind]
  refine (hpart x (by simp) t' h').mono ?_ fun _ h => h
  rintro e t'' ⟨h'', hf'', he⟩
  refine (ends_pure _).2 ⟨h'', hf'.trans hf'', parts ++ [e], ?_, ?_⟩
  · exact List.rel_append hparts (.cons he .nil)
  · have hlength : (gone.map weight).length = parts.length := by
      rw [List.length_map, hparts.length_eq]
    rw [List.map_append, List.zip_append hlength]
    exact (Expression.weightedSum_append _ (weight x, e)).symm

/-! ## Reduced variables -/

omit [Scalar α] in
theorem frozen_addReduced (t : Transcription α (Coordinate α))
    (r : ReducedVariable α (Coordinate α)) : Frozen t { t with reduced := t.reduced ++ [r] } :=
  ⟨rfl, rfl, rfl, rfl, rfl, rfl⟩

omit [Scalar α] in
theorem frozen_setMeasures (t : Transcription α (Coordinate α))
    (measures : Entries (Coordinate α) (Expression α)) : Frozen t { t with measures } :=
  ⟨rfl, rfl, rfl, rfl, rfl, rfl⟩

/-- Reducing a variable at points on the grid finds all its counterparts. -/
theorem ends_reduce (hd : m.Defined) (h : LaidOut m verbose t) {function : Ref}
    {measured : List Ref} {points : List (List α)}
    (hpoints : ∀ values ∈ points, List.Forall₂ (fun p x => ∃ y ∈ m.axis p, (y == x) = true)
      measured values) :
    Ends (reduce m function measured points) t
      (fun _ t' => Frozen t t' ∧ t'.measures = t.measures) fun _ => True := by
  have hrefl : Frozen t t ∧ t.measures = t.measures := ⟨.refl t, rfl⟩
  unfold reduce
  rw [ends_ite]
  refine ⟨fun _ => ?_, fun _ => (ends_pure _).2 hrefl⟩
  rw [ends_bind, ends_check]
  refine ⟨fun ⟨name, parameters⟩ hi => ?_, fun _ _ => trivial⟩
  dsimp only
  rw [ends_ite]
  refine ⟨fun _ => ?_, fun _ => (ends_pure _).2 hrefl⟩
  rw [ends_bind]
  refine (Ends.forIn (fun _ t' => Frozen t t' ∧ t'.measures = t.measures) hrefl ?_).mono
    (fun _ t' h' => (ends_pure _).2 h') fun _ h' => h'
  rintro gone values rest t' rfl ⟨hf, hmeasures⟩
  have hvalues := hpoints values (by simp)
  have hlaid := h.of_frozen hf
  rw [ends_bind, ends_get]
  rw [ends_ite]
  refine ⟨fun _ => (ends_pure _).2 ⟨rfl, hf, hmeasures⟩, fun _ => ?_⟩
  rw [ends_bind]
  refine (ends_keys hlaid.snapshot _).mono ?_ fun _ h' => h'
  rintro keys t₁ ⟨rfl, rfl⟩
  rw [ends_bind]
  refine (Ends.mapM (fun t'' => t'' = t₁) (R := fun _ _ => True) rfl
    fun key hkey t'' ht'' => ?_).mono ?_ fun _ h' => h'
  · rw [ht'', ends_bind, ends_check]
    refine ⟨fun key' hkey' => ?_, fun _ _ => trivial⟩
    -- a key on the grid stays there when the coordinates of the point are put in
    have honGrid : m.OnGridKey parameters key' :=
      ((Model.onGridPoint_zip (Model.onGridKey_of_mem hd hkey)).override hvalues).key hkey'
    rw [ends_bind]
    exact (hlaid.ends_variableAt hi honGrid).mono
      (fun _ _ h' => (ends_pure _).2 ⟨h'.1, trivial⟩) fun _ h' => h'
  · rintro rows t₂ ⟨rfl, -⟩
    rw [ends_bind]
    -- filling the entry changes no more than the entry
    refine (Ends.foldlM (fun _ _ t'' => t'' = t₂) rfl fun _ row _ entry t'' _ ht'' => ?_).mono ?_
      fun _ h' => h'
    · rw [ht'']
      exact ((moves_insert (R := Eq) (F := Eq) entry row.1 row.2).ends t₂).mono
        (fun _ _ h' => h'.symm) fun _ _ => trivial
    · rintro entry _ rfl
      rw [ends_bind, ends_modify, ends_pure]
      exact ⟨rfl, hf.trans (frozen_addReduced _ _), hmeasures⟩

/-! ## Expressions -/

/-- Setting an entry of good expressions keeps all of them good. -/
theorem Remembers.set {measures : Entries (Coordinate α) (Expression α)}
    (h : Remembers m Good measures) (hf : m.functionParameters ref = .ok parameters)
    {e : Entry (Coordinate α) (Expression α)}
    (he : ∀ row ∈ e.rows, m.OnGridKey parameters row.1 ∧ Good ref (row.1.map (·.value)) row.2) :
    Remembers m Good (measures.set ref e) := by
  intro ref' e' parameters' he' hf'
  rw [Entries.get?_set] at he'
  split at he'
  · rename_i heq
    cases he'
    rw [heq, hf] at hf'
    cases hf'
    rw [heq]
    exact he
  · exact h ref' e' parameters' he' hf'

/-- A key is appended to an entry or there already. -/
theorem ends_insert_of {β : Type} {e : Entry (Coordinate α) β} {key : List (Coordinate α)} {c : β}
    {ok : Entry (Coordinate α) β → Transcription α (Coordinate α) → Prop}
    (h : ok { e with rows := e.rows ++ [(key, c)], memo := [] } t) (hfail : fail t) :
    Ends (insert e key c) t ok fail :=
  ends_insert_new (fun _ => h) hfail

theorem ends_measureEntry (h : Remembers m Good t.measures)
    (hf : m.functionParameters ref = .ok parameters) :
    Ends (measureEntry ref parameters) t
      (fun e t' => Frozen t t' ∧ Remembers m Good t'.measures ∧
        ∀ row ∈ e.rows, m.OnGridKey parameters row.1 ∧ Good ref (row.1.map (·.value)) row.2)
      fail :=
  ends_measureEntry_of (fun e he => ⟨.refl t, h, h ref e parameters he hf⟩) fun _ =>
    ⟨⟨rfl, rfl, rfl, rfl, rfl, rfl⟩, h.set hf nofun, nofun⟩

/-- The expression of a measure is remembered, and its reduced variables are recorded. -/
theorem ends_record (hd : m.Defined) (h : Stable m verbose vars Good t)
    (hf : m.functionParameters ref = .ok parameters) {key : List (Coordinate α)}
    (hgrid : m.OnGridKey parameters key) {function : Ref} {measured : List Ref}
    {points : List (List α)}
    (hpoints : ∀ values ∈ points, List.Forall₂ (fun p x => ∃ y ∈ m.axis p, (y == x) = true)
      measured values)
    {result : Expression α} (hgood : Good ref (key.map (·.value)) result) :
    Ends (do
        let entry ← measureEntry ref parameters
        let entry ← insert entry key result
        modify fun t => { t with measures := t.measures.set ref entry }
        reduce m function measured points
        return result) t
      (fun e t' => Stable m verbose vars Good t' ∧ Frozen t t' ∧ e = result) fun _ => True := by
  rw [ends_bind]
  refine (ends_measureEntry h.remembers hf).mono ?_ fun _ h => h
  rintro e t₁ ⟨hf₁, hr₁, he⟩
  rw [ends_bind]
  refine ends_insert_of ?_ trivial
  rw [ends_bind, ends_modify, ends_bind]
  let e' : Entry (Coordinate α) (Expression α) :=
    { e with rows := e.rows ++ [(key, result)], memo := [] }
  -- the rows that were remembered before, and the new one
  have hset : Remembers m Good (t₁.measures.set ref e') := by
    refine hr₁.set hf fun row hrow => ?_
    rcases List.mem_append.1 hrow with hrow | hrow
    · exact he row hrow
    · obtain rfl := List.mem_singleton.1 hrow
      exact ⟨hgrid, hgood⟩
  have hf₂ := hf₁.trans (frozen_setMeasures t₁ (t₁.measures.set ref e'))
  refine (ends_reduce hd (h.laid.of_frozen hf₂) hpoints).mono ?_ fun _ h => h
  rintro - t₃ ⟨hf₃, hmeasures⟩
  have hf₃ := hf₂.trans hf₃
  exact (ends_pure _).2 ⟨h.of_frozen hf₃ (hmeasures ▸ hset), hf₃, rfl⟩

omit [Scalar α] in
/-- The values at a point are found by the values of its coordinates. -/
theorem GoodAt.values {point : Point (Coordinate α)} {e : Expression α}
    (h : GoodAt m Good ref point e) : ∃ inner key, m.functionParameters ref = .ok inner ∧
      (Point.key (point.map fun (r, c) => (r, c.value)) inner : Except (Error α) (List α)) =
        .ok key ∧ Good ref key e := by
  obtain ⟨inner, key, hinner, hkey, hgood⟩ := h
  refine ⟨inner, key.map (·.value), hinner, ?_, hgood⟩
  rw [Point.key_eq_ok] at hkey ⊢
  rw [List.forall₂_map_right_iff]
  exact hkey.imp fun p c hc => by rw [Point.get?_map, hc]; rfl

omit [Scalar α] in
/-- The values of the coordinates of a key. -/
theorem map_value_zip (parameters : List Ref) (key : List (Coordinate α)) :
    ((parameters.zip key).map fun (r, c) => (r, c.value)) =
      parameters.zip (key.map (·.value)) := by
  rw [List.zip_map_right]
  rfl

omit [Scalar α] in
/-- The values of an overridden point are the overridden values. -/
theorem map_value_override (own : List (Coordinate α)) (measured : List Ref) (values : List α) :
    ((Point.override (parameters.zip own) measured (Coordinate.ofValues values)).map
      fun (r, c) => (r, c.value)) =
      Point.override (parameters.zip (own.map (·.value))) measured values := by
  rw [Point.override, List.map_append, map_value_zip, map_value_zip,
    Coordinate.map_value_ofValues, Point.override]

/-- The expression of a finite or point variable is the variable that stands for it. -/
theorem ends_expression_single (hr : Respects m vars Good) (h : Stable m verbose vars Good t)
    (hk : ref.kind = .finiteVariable ∨ ref.kind = .pointVariable)
    (point : Point (Coordinate α)) :
    Ends (do return .ofVariable (← singleVariable m ref) : Building α (Expression α)) t
      (fun e t' => Stable m verbose vars Good t' ∧ Frozen t t' ∧ GoodAt m Good ref point e)
      fun _ => True := by
  rw [ends_bind]
  refine (h.laid.ends_singleVariable hk).mono ?_ fun _ h => h
  rintro i _ ⟨rfl, hi⟩
  rw [h.vars] at hi
  exact (ends_pure _).2 ⟨h, .refl _, [], [],
    Model.functionParameters_eq_ok.2 (.inr (.inl ⟨hk, rfl⟩)), rfl, hr.single ref i hk hi⟩

/-- The expression of an infinite variable or derivative is the variable at its key. -/
theorem ends_expression_indexed (hr : Respects m vars Good) (h : Stable m verbose vars Good t)
    {point : Point (Coordinate α)} (hpoint : m.OnGridPoint point) :
    Ends (do
        let (_, parameters) ← check (m.indexed ref)
        return .ofVariable (← variableAt m ref (← check (point.key parameters))) :
          Building α (Expression α)) t
      (fun e t' => Stable m verbose vars Good t' ∧ Frozen t t' ∧ GoodAt m Good ref point e)
      fun _ => True := by
  rw [ends_bind, ends_check]
  refine ⟨fun ⟨name, parameters⟩ hi => ?_, fun _ _ => trivial⟩
  have hf := Model.functionParameters_eq_ok.2 (.inr (.inr (.inr ⟨name, hi⟩)))
  dsimp only
  rw [ends_bind, ends_check]
  refine ⟨fun key hkey => ?_, fun _ _ => trivial⟩
  have hgrid := hpoint.key hkey
  rw [ends_bind]
  refine (h.laid.ends_variableAt hi hgrid).mono ?_ fun _ h => h
  -- the variable is found, and nothing is added
  rintro i _ ⟨rfl, e, he, hget⟩
  rw [h.vars] at he
  exact (ends_pure _).2 ⟨h, .refl _, parameters, key, hf, hkey,
    hr.indexed ref name parameters e key i hi hgrid he hget⟩

/-- The expression of a measure at a key where none is remembered, if those of its function have the
property. -/
theorem ends_expression_measure (hs : m.Sound) (hd : m.Defined) (hg : m.OnGrid)
    (hr : Respects m vars Good) (h : Stable m verbose vars Good t) {μ : Measure α}
    (hμ : m.measure ref = .ok μ) (hlt : μ.function.rank < ref.rank)
    (hf : m.functionParameters ref = .ok parameters) {key : List (Coordinate α)}
    (hgrid : m.OnGridKey parameters key) {weights : List α} {points : List (List α)}
    (hweights : μ.data.weights = .ok weights) (hpoints : roundedPoints m μ.data = .ok points)
    (hfunction : ∀ t' point, Stable m verbose vars Good t' → m.OnGridPoint point →
      Ends (expression m μ.function point) t'
        (fun e t'' => Stable m verbose vars Good t'' ∧ Frozen t' t'' ∧
          GoodAt m Good μ.function point e) fun _ => True) :
    Ends (do
        let result ← (points.zip weights).foldlM (fun (sum : Expression α) row => do
          let part ← expression m μ.function
            (Point.override (parameters.zip key) μ.data.parameters (Coordinate.ofValues row.1))
          return sum.add part row.2) .zero
        let entry ← measureEntry ref parameters
        let entry ← insert entry key result
        modify fun t => { t with measures := t.measures.set ref entry }
        reduce m μ.function μ.data.parameters points
        return result) t
      (fun e t' => Stable m verbose vars Good t' ∧ Frozen t t' ∧ Good ref (key.map (·.value)) e)
      fun _ => True := by
  have haxes := onAxis_of_roundedPoints hs hg hμ hpoints
  rw [ends_bind]
  refine (ends_sum (R := fun row part => GoodAt m Good μ.function
    (Point.override (parameters.zip key) μ.data.parameters (Coordinate.ofValues row.1)) part)
    h fun row hrow t' h' => ?_).mono ?_ fun _ h => h
  · exact hfunction t' _ h'
      ((Model.onGridPoint_zip hgrid).override (haxes row.1 (List.of_mem_zip hrow).1))
  · rintro result t₁ ⟨h₁, hf₁, parts, hparts, rfl⟩
    have hgood := hr.measure ref μ parameters (key.map (·.value)) weights points parts hμ hlt hf
      (by rw [List.length_map, hgrid.length_eq]) hweights hpoints
      (hparts.imp fun _ _ h => by rw [← map_value_override]; exact h.values)
    refine (ends_record hd h₁ hf hgrid haxes hgood).mono ?_ fun _ h => h
    rintro _ t₂ ⟨h₂, hf₂, rfl⟩
    exact ⟨h₂, hf₁.trans hf₂, hgood⟩

/-- The expression of an object at a point on the grid has the property, and the layout is kept. The
induction is on the rank of the object: a measure asks for expressions of its function only. -/
theorem ends_expression [LawfulScalar α] (hs : m.Sound) (hd : m.Defined) (hg : m.OnGrid)
    (hr : Respects m vars Good) (h : Stable m verbose vars Good t) (ref : Ref)
    {point : Point (Coordinate α)} (hpoint : m.OnGridPoint point) :
    Ends (expression m ref point) t
      (fun e t' => Stable m verbose vars Good t' ∧ Frozen t t' ∧ GoodAt m Good ref point e)
      fun _ => True := by
  induction hrank : ref.rank using Nat.strongRecOn generalizing ref point t with
  | ind rank ih =>
    unfold expression
    split
    · rename_i hk
      split
      · rename_i c hc
        exact (ends_pure _).2 ⟨h, .refl t, [ref], [c],
          Model.functionParameters_eq_ok.2 (.inl ⟨hk, rfl⟩), Point.key_eq_ok.2 (.cons hc .nil),
          hr.parameter ref c.value hk⟩
      · exact (ends_throw _).2 trivial
    · rename_i hk
      exact ends_expression_single hr h (.inl hk) point
    · rename_i hk
      exact ends_expression_single hr h (.inr hk) point
    · exact ends_expression_indexed hr h hpoint
    · exact ends_expression_indexed hr h hpoint
    · rw [ends_bind, ends_check]
      refine ⟨fun parameters hf => ?_, fun _ _ => trivial⟩
      rw [ends_bind, ends_check]
      refine ⟨fun key hkey => ?_, fun _ _ => trivial⟩
      have hgrid := hpoint.key hkey
      rw [ends_bind, ends_check]
      refine ⟨fun μ hμ => ?_, fun _ _ => trivial⟩
      rw [ends_bind]
      refine (ends_measureEntry h.remembers hf).mono ?_ fun _ h => h
      rintro e t₁ ⟨hf₁, hr₁, he⟩
      have h₁ := h.of_frozen hf₁ hr₁
      split
      · -- a key that is remembered may differ from the one asked for in its places only
        rename_i part hpart
        obtain ⟨k, hrow, hbeq⟩ := Entry.exists_row_of_get? hpart
        obtain ⟨honGrid, hgood⟩ := he _ hrow
        rw [Model.beq_of_onGrid hd honGrid hgrid] at hbeq
        exact (ends_pure _).2 ⟨h₁, hf₁, parameters, key, hf, hkey, hr.congr _ _ _ _ hbeq hgood⟩
      dsimp only
      rw [ends_bind, ends_check]
      refine ⟨fun weights hweights => ?_, fun _ _ => trivial⟩
      rw [ends_bind, ends_check]
      refine ⟨fun points hpoints => ?_, fun _ _ => trivial⟩
      split
      · rename_i hlt
        refine (ends_expression_measure hs hd hg hr h₁ hμ hlt hf hgrid hweights hpoints
          fun _ _ h' hpoint' => ih _ (hrank ▸ hlt) h' _ hpoint' rfl).mono ?_ fun _ h => h
        rintro _ t₂ ⟨h₂, hf₂, hgood⟩
        exact ⟨h₂, hf₁.trans hf₂, parameters, key, hf, hkey, hgood⟩
      · exact (ends_throw _).2 trivial
    · exact (ends_throw _).2 trivial

/-- A sum of coefficients times objects at a point on the grid. -/
theorem ends_combination [LawfulScalar α] (hs : m.Sound) (hd : m.Defined) (hg : m.OnGrid)
    (hr : Respects m vars Good) (h : Stable m verbose vars Good t) (terms : List (α × Ref))
    {point : Point (Coordinate α)} (hpoint : m.OnGridPoint point) :
    Ends (combination m terms point) t
      (fun e t' => Stable m verbose vars Good t' ∧ Frozen t t' ∧ ∃ parts,
        List.Forall₂ (fun term part => GoodAt m Good term.2 point part) terms parts ∧
        e = .weightedSum ((terms.map (·.1)).zip parts)) fun _ => True :=
  ends_sum h fun term _ _ h' => ends_expression hs hd hg hr h' term.2 hpoint

end Building

end Discretization
