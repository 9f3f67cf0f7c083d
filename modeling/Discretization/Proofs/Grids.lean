import Discretization.Proofs.Entries
import Discretization.Proofs.Invariant

/-!
# Grids

The supports of parameters at the time of a transcription span the grids that objects are expanded
over. A key on the grid has a support, or a number equal to one, for each parameter. While a
transcription is built a coordinate may be known by its place, but as long as supports are defined,
keys on the grid are the same just if their numbers are.

## Main definitions

* `Model.axis`, `Model.grid`: the supports of a parameter and their combinations;
* `Model.gridKeys`: the grid with its places;
* `Model.OnGridKey`: a key on the grid.

## Main results

* `Model.parameters_snapshot`, `Model.values_snapshot`: a transcription starts with the supports of
  the model;
* `Model.beq_of_onGrid`: keys on the grid are compared by their numbers;
* `Model.pairwise_gridKeys`, `Model.exists_gridKey`: the grid has every key once.
-/

namespace Discretization

variable {α : Type}

namespace Model

variable {m : Model α} {p : Ref} {q : Parameter α}

/-- A snapshot has the parameters of the model in order. -/
theorem parameters_snapshot (m : Model α) : m.snapshot.parameters = m.liveRefs .parameter := by
  simp [Snapshot.parameters, snapshot, liveRefs, indices, Table.indices]

/-- A snapshot has the supports of every parameter. -/
theorem supports?_snapshot (hq : m.parameter (.given p) = .ok q) :
    m.snapshot.supports? p = some q.supports.supports := by
  obtain ⟨hid, hk, hg⟩ := parameter_eq_ok.1 hq
  have hrow : ((fun row : Ref × List (Support α) => decide (row.1 = p)) ∘
      fun row : Nat × Parameter α => (m.ref .parameter row.1, row.2.supports.supports)) =
      fun row => decide ((row.1 : Int) = p.index) := by
    funext row
    cases p
    simp_all [Model.ref]
  rw [Table.get?, Option.map_eq_some_iff] at hg
  obtain ⟨row, hfind, hrow'⟩ := hg
  rw [Snapshot.supports?, snapshot, List.find?_map, hrow, hfind, ← hrow']
  rfl

/-- A snapshot has the support values of every parameter. -/
theorem values_snapshot (hq : m.parameter (.given p) = .ok q) :
    m.snapshot.values p = .ok q.supports.values := by
  rw [Snapshot.values, supports?_snapshot hq]
  rfl

/-- Only live parameters have values in a snapshot. -/
theorem values_snapshot_eq_ok {values : List α} :
    m.snapshot.values p = .ok values ↔
      ∃ q, m.parameter (.given p) = .ok q ∧ values = q.supports.values := by
  refine ⟨fun h => ?_, fun ⟨q, hq, hv⟩ => hv ▸ values_snapshot hq⟩
  -- the snapshot lists live parameters only
  have hlive : p ∈ m.liveRefs .parameter := by
    rw [← parameters_snapshot]
    rw [Snapshot.values, Snapshot.supports?] at h
    cases hfind : m.snapshot.find? (·.1 = p) with
    | none =>
      rw [hfind] at h
      cases h
    | some row =>
      have hrow := List.find?_some hfind
      exact List.mem_map.2 ⟨row, List.mem_of_find?_eq_some hfind, of_decide_eq_true hrow⟩
  obtain ⟨q, hq⟩ := mem_liveRefs_parameter.1 hlive
  rw [values_snapshot hq] at h
  exact ⟨q, hq, (Except.ok.inj h).symm⟩

end Model

/-! ## Combinations -/

section Combinations

variable {β γ : Type}

/-- A combination has one item of each list. -/
theorem mem_combinations {xss : List (List β)} {xs : List β} :
    xs ∈ combinations xss ↔ List.Forall₂ (· ∈ ·) xs xss := by
  induction xss generalizing xs with
  | nil => simp [combinations]
  | cons row rest ih =>
    simp only [combinations, List.mem_flatMap, List.mem_map, List.forall₂_cons_right_iff, ih]
    grind

theorem length_combinations (xss : List (List β)) :
    (combinations xss).length = (xss.map List.length).prod := by
  induction xss with
  | nil => rfl
  | cons row rest ih =>
    rw [combinations, List.length_flatMap]
    simp [ih]

theorem combinations_map (f : β → γ) (xss : List (List β)) :
    combinations (xss.map (List.map f)) = (combinations xss).map (List.map f) := by
  induction xss with
  | nil => rfl
  | cons row rest ih =>
    rw [List.map_cons, combinations, combinations, ih, List.map_flatMap, List.flatMap_map]
    simp [Function.comp_def]

/-- Combinations of different items are different. -/
theorem pairwise_combinations [BEq β] {xss : List (List β)}
    (h : ∀ row ∈ xss, row.Pairwise fun x y => (x == y) = false) :
    (combinations xss).Pairwise fun xs ys => (xs == ys) = false := by
  induction xss with
  | nil => simp [combinations]
  | cons row rest ih =>
    have hrest := ih fun r hr => h r (List.mem_cons_of_mem _ hr)
    rw [combinations, List.pairwise_flatMap]
    refine ⟨fun x _ => ?_, (h row List.mem_cons_self).imp fun {x y} hxy => ?_⟩
    · rw [List.pairwise_map]
      exact hrest.imp fun hne => by rw [List.cons_beq_cons, hne, Bool.and_false]
    · intro xs hxs ys hys
      obtain ⟨xs, -, rfl⟩ := List.mem_map.1 hxs
      obtain ⟨ys, -, rfl⟩ := List.mem_map.1 hys
      rw [List.cons_beq_cons, hxy, Bool.false_and]

end Combinations

/-! ## Coordinates -/

namespace Coordinate

variable [Scalar α] {axis : List α} {c c' : Coordinate α}

/-- The coordinate has a number of the axis, the one at its place if it has one. -/
structure OnAxis (axis : List α) (c : Coordinate α) : Prop where
  placed : ∀ place, c.place = some place → axis[place.position]? = some c.value
  stored : ∃ x ∈ axis, (x == c.value) = true

/-- Coordinates of a defined axis are compared by their numbers. -/
theorem beq_of_onAxis (hd : ∀ x ∈ axis, Scalar.Defined x) (h : c.OnAxis axis)
    (h' : c'.OnAxis axis) : (c == c') = (c.value == c'.value) := by
  change (c.value == c'.value || (c.place.isSome && c.place == c'.place)) = _
  rw [Bool.or_eq_left_iff_imp, Bool.and_eq_true]
  rintro ⟨hsome, hplace⟩
  obtain ⟨place, hc⟩ := Option.isSome_iff_exists.1 hsome
  have hc' : c'.place = some place := by rw [← hc, eq_of_beq hplace]
  -- one place of the axis has one number
  have hvalue := h.placed place hc
  have hsame : some c.value = some c'.value := hvalue.symm.trans (h'.placed place hc')
  rw [← Option.some.inj hsame]
  exact hd _ (List.mem_of_getElem? hvalue)

theorem onAxis_of_mem {grid : List Ref} (hd : ∀ x ∈ axis, Scalar.Defined x)
    (h : c ∈ Coordinate.axis grid axis) : c.OnAxis axis := by
  obtain ⟨i, hi, rfl⟩ := List.mem_mapIdx.1 h
  refine ⟨fun place hplace => ?_, ⟨axis[i], List.getElem_mem hi, hd _ (List.getElem_mem hi)⟩⟩
  cases hplace
  exact List.getElem?_eq_getElem hi

omit [Scalar α] in
theorem map_value_axis (grid : List Ref) (axis : List α) :
    (Coordinate.axis grid axis).map (·.value) = axis := by
  rw [Coordinate.axis]
  exact List.ext_getElem (by simp) (by simp)

omit [Scalar α] in
@[simp]
theorem map_value_ofValues (values : List α) : (ofValues values).map (·.value) = values := by
  simp [ofValues, Function.comp_def]

end Coordinate

namespace Model

variable {m : Model α} {p : Ref} {q : Parameter α} {parameters : List Ref}

/-- The support values of a parameter. -/
def axis (m : Model α) (p : Ref) : List α :=
  match m.parameter (.given p) with
  | .ok q => q.supports.values
  | .error _ => []

theorem axis_eq (hq : m.parameter (.given p) = .ok q) : m.axis p = q.supports.values := by
  rw [axis, hq]

/-- Every combination of the supports of parameters, the last parameter varying fastest. -/
def grid (m : Model α) (parameters : List Ref) : List (List α) :=
  combinations (parameters.map m.axis)

/-- Every combination of the supports of parameters with their places. -/
def gridKeys (m : Model α) (parameters : List Ref) : List (List (Coordinate α)) :=
  combinations (parameters.map fun p => Coordinate.axis parameters (m.axis p))

theorem length_grid (m : Model α) (parameters : List Ref) :
    (m.grid parameters).length = (parameters.map fun p => (m.axis p).length).prod := by
  rw [grid, length_combinations, List.map_map]
  rfl

theorem map_value_gridKeys (m : Model α) (parameters : List Ref) :
    (m.gridKeys parameters).map (List.map (·.value)) = m.grid parameters := by
  rw [gridKeys, ← combinations_map, List.map_map, grid]
  congr 1
  exact List.map_congr_left fun p _ => Coordinate.map_value_axis parameters (m.axis p)

section Scalars

variable [Scalar α] {key key' : List (Coordinate α)}

/-- A key has a coordinate on the axis of each parameter. -/
def OnGridKey (m : Model α) (parameters : List Ref) (key : List (Coordinate α)) : Prop :=
  List.Forall₂ (fun p c => Coordinate.OnAxis (m.axis p) c) parameters key

theorem Defined.axis (h : m.Defined) (p : Ref) : ∀ x ∈ m.axis p, Scalar.Defined x := by
  rw [Model.axis]
  split
  · rename_i q hq
    exact h p q hq
  · exact nofun

/-- The supports of a parameter are different numbers. -/
theorem pairwise_axis [LawfulScalar α] (hs : m.Sound) (hd : m.Defined) (p : Ref) :
    (m.axis p).Pairwise fun x y => (x == y) = false := by
  have h := hd.axis p
  rw [Model.axis] at h ⊢
  split
  · rename_i q hq
    rw [hq] at h
    exact ((hs.parameter p q hq).ordered h).2.imp Scalar.not_beq_of_lt
  · exact .nil

/-- Keys on the grid are compared by their numbers. -/
theorem beq_of_onGrid (hd : m.Defined) (h : m.OnGridKey parameters key)
    (h' : m.OnGridKey parameters key') :
    (key == key') = (key.map (·.value) == key'.map (·.value)) := by
  induction h generalizing key' with
  | nil =>
    cases h'
    rfl
  | @cons p c parameters key hc _ ih =>
    cases h' with
    | cons hc' hrest =>
      rw [List.map_cons, List.map_cons, List.cons_beq_cons, List.cons_beq_cons, ih hrest,
        Coordinate.beq_of_onAxis (hd.axis p) hc hc']

theorem onGridKey_of_mem (hd : m.Defined) (h : key ∈ m.gridKeys parameters) :
    m.OnGridKey parameters key := by
  have h := mem_combinations.1 h
  rw [List.forall₂_map_right_iff] at h
  exact h.flip.imp fun p c hc => Coordinate.onAxis_of_mem (hd.axis p) hc

/-- No two combinations of supports are the same. -/
theorem pairwise_grid [LawfulScalar α] (hs : m.Sound) (hd : m.Defined) (parameters : List Ref) :
    (m.grid parameters).Pairwise fun k k' => (k == k') = false := by
  refine pairwise_combinations fun row hrow => ?_
  obtain ⟨p, -, rfl⟩ := List.mem_map.1 hrow
  exact pairwise_axis hs hd p

/-- A combination of supports equals itself. -/
theorem beq_self_of_mem_grid (hd : m.Defined) {values : List α} (h : values ∈ m.grid parameters) :
    (values == values) = true := by
  rw [grid, mem_combinations, List.forall₂_map_right_iff] at h
  induction h with
  | nil => rfl
  | @cons x p values parameters hx _ ih =>
    rw [List.cons_beq_cons, hd.axis p x hx, ih, Bool.true_and]

/-- No two keys of the grid are the same. -/
theorem pairwise_gridKeys [LawfulScalar α] (hs : m.Sound) (hd : m.Defined)
    (parameters : List Ref) : (m.gridKeys parameters).Pairwise fun k k' => (k == k') = false := by
  have hgrid := pairwise_grid hs hd parameters
  rw [← map_value_gridKeys, List.pairwise_map] at hgrid
  refine hgrid.imp_of_mem fun hk hk' hne => ?_
  rw [beq_of_onGrid hd (onGridKey_of_mem hd hk) (onGridKey_of_mem hd hk')]
  exact hne

/-- Every key on the grid is one of the keys of the grid. -/
theorem exists_gridKey (h : m.OnGridKey parameters key) :
    ∃ k ∈ m.gridKeys parameters, (k == key) = true := by
  -- a coordinate knows all parameters of its key, so these are held fixed in the induction
  suffices ∀ grid : List Ref, ∃ k ∈ combinations (parameters.map fun p =>
      Coordinate.axis grid (m.axis p)), (k == key) = true from this parameters
  intro grid
  induction h with
  | nil => exact ⟨[], by simp [combinations], rfl⟩
  | @cons p c parameters key hc _ ih =>
    obtain ⟨k, hk, hkey⟩ := ih
    obtain ⟨x, hx, hxc⟩ := hc.stored
    rw [← Coordinate.map_value_axis grid (m.axis p)] at hx
    obtain ⟨c', hc', rfl⟩ := List.mem_map.1 hx
    refine ⟨c' :: k, mem_combinations.2 (.cons hc' (mem_combinations.1 hk)), ?_⟩
    rw [List.cons_beq_cons, hkey, Bool.and_true]
    change Coordinate.agree c' c = true
    rw [Coordinate.agree, hxc, Bool.true_or]

/-- A key on the grid is found by its numbers where all keys are on the grid. -/
theorem get?_mapKeys {β : Type} (hd : m.Defined) {e : Entry (Coordinate α) β}
    (he : ∀ row ∈ e.rows, m.OnGridKey parameters row.1) (hk : m.OnGridKey parameters key) :
    (e.mapKeys (·.value)).get? (key.map (·.value)) = e.get? key := by
  have hfound : ∀ rows : List (List (Coordinate α) × β),
      (∀ row ∈ rows, m.OnGridKey parameters row.1) →
      (rows.find? fun row => row.1.map (·.value) == key.map (·.value)) =
        rows.find? fun row => row.1 == key := by
    intro rows hrows
    induction rows with
    | nil => rfl
    | cons row rest ih =>
      rw [List.find?_cons, List.find?_cons, ih fun r hr => hrows r (List.mem_cons_of_mem _ hr),
        beq_of_onGrid hd (hrows row List.mem_cons_self) hk]
  rw [Entry.get?, Entry.mapKeys, List.find?_map, Option.map_map, Entry.get?, ← hfound e.rows he]
  rfl

end Scalars

end Model

/-- While a transcription is built, keys are those of the grid of the model. -/
theorem Building.ends_keys {m : Model α} {t : Transcription α (Coordinate α)}
    (ht : t.snapshot = m.snapshot) (parameters : List Ref) :
    Ends (keys parameters) t (fun keys t' => t' = t ∧ keys = m.gridKeys parameters)
      fun _ => True := by
  unfold keys
  rw [ends_bind, ends_get]
  dsimp only
  rw [ends_bind]
  -- the axes are read one by one, and nothing changes
  refine (Ends.mapM (fun t' => t' = t) (R := fun p axis =>
    axis = Coordinate.axis parameters (m.axis p)) rfl fun p _ t' ht' => ?_).mono ?_
    fun _ h => h
  · rw [ends_bind, ends_check, ht]
    refine ⟨fun values hvalues => ?_, fun _ _ => trivial⟩
    obtain ⟨q, hq, rfl⟩ := Model.values_snapshot_eq_ok.1 hvalues
    rw [← Model.axis_eq hq]
    exact (ends_pure _).2 ⟨ht', rfl⟩
  · rintro axes t' ⟨rfl, haxes⟩
    exact (ends_pure _).2 ⟨rfl, by rw [Model.gridKeys, eq_map_of_forall₂ haxes]⟩

end Discretization
