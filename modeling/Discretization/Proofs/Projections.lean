import Discretization.Proofs.Alignments
import Discretization.Proofs.Answers

/-!
# Reduced Variables Point into Their Variables

A reduced variable has no finite variables of its own. At each combination of the parameters that
are left it has the finite variable that its infinite variable or derivative has where the fixed
parameters have their values. The fixed parameters stand in the order of the measure, those left in
the order of the variable, and the two may alternate, so a key of the variable is put together from
both, parameter by parameter.

What is recorded in the middle of a transcription stays right to the end: variables only ever gain
keys, so a finite variable that was found at a key is found there ever after.

## Main definitions

* `Completes`: a key of the variable is put together from fixed values and a key of the reduced
  variable;
* `Building.Drawn`: the finite variables of a reduced variable are those of its variable, while a
  transcription is built;
* `Model.Projects`: the same for what is looked up in the end.

## Main results

* `Building.admits_keepsDrawn`: every change on the way to a transcription keeps reduced variables
  drawn from their variables;
* `projected_of_build`: the references to reduced variables are in the order of those that a build
  records, and each one points into its variable.
-/

namespace Discretization

variable {α : Type} [Scalar α]

/-! ## Keys of a reduced variable -/

/-- A key of an infinite variable completes one of a reduced variable: a parameter that is fixed has
its value, and any other one is left and has its value in the key of the reduced variable. -/
def Completes (fixed : List (Ref × α)) (left parameters : List Ref) (key full : List α) : Prop :=
  List.Forall₂ (fun p x => Point.get? fixed p = some x ∨
    Point.get? fixed p = none ∧ Point.get? (left.zip key) p = some x) parameters full

omit [Scalar α] in
/-- A parameter of the variable is fixed at its value at the point of the measure, if it has one. -/
theorem get?_fixedAt {measured parameters : List Ref} {point : List α} {p : Ref}
    (hp : p ∈ parameters) :
    Point.get? (fixedAt measured parameters point) p = Point.get? (measured.zip point) p := by
  rw [Point.get?, Point.get?, fixedAt, List.find?_filter]
  congr 2
  funext row
  by_cases h : row.1 = p <;> simp [h, hp]

namespace Building

open Transcription

variable {m : Model α} {vars vars' : Entries (Coordinate α) Nat}
  {t t' : Transcription α (Coordinate α)} {v ref : Ref} {name : String}
  {parameters measured left : List Ref} {fixed : List (Ref × α)} {point : List α}
  {key full : List (Coordinate α)}

omit [Scalar α] in
/-- The key that a measure asks for at one of its points completes that of the reduced variable. -/
theorem completes_of_key (h : (Point.override (left.zip key) measured
      (Coordinate.ofValues point)).key parameters = (.ok full : Except (Error α) _)) :
    Completes (fixedAt measured parameters point) left parameters (key.map (·.value))
      (full.map (·.value)) := by
  obtain ⟨hlength, hkey⟩ := List.forall₂_iff_zip.1 (Point.key_eq_ok.1 h)
  rw [Completes, List.forall₂_map_right_iff]
  refine List.forall₂_iff_zip.2 ⟨hlength, fun {p c} hmem => ?_⟩
  have hfixed : Point.get? (measured.zip point) p =
      (Point.get? (measured.zip (Coordinate.ofValues point)) p).map (·.value) := by
    rw [← Point.get?_map, map_value_zip, Coordinate.map_value_ofValues]
  have hleft : Point.get? (left.zip (key.map (·.value))) p =
      (Point.get? (left.zip key) p).map (·.value) := by
    rw [← Point.get?_map, map_value_zip]
  have hc := hkey hmem
  rw [Point.override, Point.get?_append] at hc
  rw [get?_fixedAt (List.of_mem_zip hmem).1, hfixed, hleft]
  -- a coordinate of the point goes before one of the key, in both
  cases hnew : Point.get? (measured.zip (Coordinate.ofValues point)) p with
  | some d =>
    rw [hnew, Option.some_or] at hc
    cases hc
    exact .inl rfl
  | none =>
    rw [hnew, Option.none_or] at hc
    exact .inr ⟨rfl, by rw [hc]; rfl⟩

/-! ## Finite variables of a reduced variable -/

/-- The finite variable at a key of a reduced variable is that of the variable at the key that
completes it. -/
def Draws (m : Model α) (vars : Entries (Coordinate α) Nat) (v : Ref) (parameters : List Ref)
    (fixed : List (Ref × α)) (left : List Ref) (row : List (Coordinate α) × Nat) : Prop :=
  ∃ e full, vars.get? v = some e ∧ m.OnGridKey parameters full ∧ e.get? full = some row.2 ∧
    Completes fixed left parameters (row.1.map (·.value)) (full.map (·.value))

/-- A reduced variable has the keys of the parameters that are left, and the finite variables of its
variable. -/
structure Drawn (m : Model α) (vars : Entries (Coordinate α) Nat)
    (r : ReducedVariable α (Coordinate α)) : Prop where
  keys : r.entry.keys = m.gridKeys r.parameters
  distinct : r.entry.Distinct
  drawn : ∃ name parameters, m.indexed r.ref = .ok (name, parameters) ∧
    r.parameters = parameters.filter (· ∉ r.fixed.map (·.1)) ∧
    ∀ row ∈ r.entry.rows, Draws m vars r.ref parameters r.fixed r.parameters row

/-- What happens while no reduced variable is recorded. -/
structure Proceeds (m : Model α) (t t' : Transcription α (Coordinate α)) : Prop where
  develops : Develops m t t'
  snapshot : t'.snapshot = t.snapshot
  reduced : t'.reduced = t.reduced

instance : IsPreorder (Transcription α (Coordinate α)) (Proceeds m) where
  refl t := ⟨refl_of _ t, rfl, rfl⟩
  trans _ _ _ h h' := ⟨trans_of _ h.develops h'.develops, h'.snapshot.trans h.snapshot,
    h'.reduced.trans h.reduced⟩

theorem widens_proceeds (m : Model α) : Widens (Proceeds m) where
  entry t _ _ hgrown := ⟨(widens_develops m).entry t hgrown, rfl, rfl⟩
  append t v := ⟨(widens_develops m).append t v, rfl, rfl⟩

/-- A finite variable that was found at a key is found there ever after. -/
theorem Draws.of_proceeds {row : List (Coordinate α) × Nat}
    (hi : m.indexed v = .ok (name, parameters))
    (h : Draws m t.vars v parameters fixed left row) (hp : Proceeds m t t') :
    Draws m t'.vars v parameters fixed left row := by
  obtain ⟨e, full, he, hgrid, hget, hcompletes⟩ := h
  have hk : v.kind.isInfiniteVariable = true := by
    rcases Model.kind_of_indexed hi with hk | hk <;> rw [hk] <;> rfl
  obtain ⟨e', he', hextends⟩ := hp.develops.vars v e hk he
  exact ⟨e', full, he', hgrid, hextends.get? hget, hcompletes⟩

/-- All reduced variables are drawn from their variables, and the supports are those of the
model. -/
structure AllDrawn (m : Model α) (t : Transcription α (Coordinate α)) : Prop where
  snapshot : t.snapshot = m.snapshot
  reduced : ∀ r ∈ t.reduced, Drawn m t.vars r

theorem AllDrawn.of_proceeds (h : AllDrawn m t) (hp : Proceeds m t t') : AllDrawn m t' where
  snapshot := hp.snapshot.trans h.snapshot
  reduced r hr := by
    obtain ⟨hkeys, hdistinct, name, parameters, hi, hleft, hrows⟩ := h.reduced r (hp.reduced ▸ hr)
    exact ⟨hkeys, hdistinct, name, parameters, hi, hleft, fun row hrow =>
      (hrows row hrow).of_proceeds hi hp⟩

end Building

/-- A key that is added to an entry is found. -/
theorem Entry.get?_snoc {κ β : Type} [BEq κ] {e : Entry κ β} {key : List κ}
    (hnew : e.get? key = none) (hkey : (key == key) = true) (b : β) :
    Entry.get? { e with rows := e.rows ++ [(key, b)], memo := [] } key = some b := by
  rw [Entry.get?, Option.map_eq_none_iff] at hnew
  rw [Entry.get?, List.find?_append, hnew, Option.none_or, List.find?_singleton, hkey]
  rfl

theorem Entry.get?_map {κ β γ : Type} [BEq κ] (f : β → γ) (e : Entry κ β) (key : List κ) :
    (e.map f).get? key = (e.get? key).map f := by
  rw [get?, map, List.find?_map, Option.map_map, get?, Option.map_map]
  rfl

/-- A key on the grid equals itself. -/
theorem Model.OnGridKey.beq_self [LawfulScalar α] {m : Model α} (hd : m.Defined)
    {parameters : List Ref} {key : List (Coordinate α)} (h : m.OnGridKey parameters key) :
    (key == key) = true := by
  rw [Model.beq_of_onGrid hd h h]
  have hspans : m.Spans parameters (key.map (·.value)) :=
    List.forall₂_map_right_iff.2 (h.imp fun p c hc => hc.stored)
  exact hspans.beq_self

namespace Building

open Transcription

variable {m : Model α} {t t' : Transcription α (Coordinate α)} {v ref : Ref} {name : String}
  {parameters measured left : List Ref} {point : List α} {key : List (Coordinate α)}

/-- The finite variable that is asked for at a key is there in the end. -/
theorem ends_variableAt_there (hkey : (key == key) = true) :
    Ends (variableAt m v key) t (fun i t' => ∃ e, t'.vars.get? v = some e ∧ e.get? key = some i)
      fun _ => True := by
  unfold variableAt
  rw [ends_bind, ends_check]
  refine ⟨fun ⟨base, parameters⟩ _ => ?_, fun _ _ => trivial⟩
  dsimp only
  rw [ends_bind]
  refine (widens_grows.ends_variableEntry t v parameters).mono ?_ fun _ h => h
  rintro e t₁ ⟨-, he⟩
  split
  · rename_i i hi
    exact (ends_pure _).2 ⟨e, he, hi⟩
  · -- the key is new, and the row that is appended for it is the one that is found
    rename_i hnone
    rw [ends_bind, ends_get, ends_bind, ends_appendVariable, ends_bind]
    refine ends_insert_new (fun _ => ?_) trivial
    rw [ends_bind, ends_modify, ends_pure]
    exact ⟨_, Entries.get?_set_self _ _ _, Entry.get?_snoc hnone hkey _⟩

section Lawful

variable [LawfulScalar α]

/-- The counterparts of a reduced variable are found or made at the keys that complete its own. -/
theorem ends_drawRows (hd : m.Defined) (hi : m.indexed v = .ok (name, parameters))
    (hpoint : List.Forall₂ (fun p x => ∃ y ∈ m.axis p, (y == x) = true) measured point) :
    Ends ((m.gridKeys left).mapM fun key => do
        let point := Point.override (left.zip key) measured (Coordinate.ofValues point)
        return (key, ← variableAt m v (← check (point.key parameters)))) t
      (fun rows t' => Proceeds m t t' ∧ rows.map (·.1) = m.gridKeys left ∧ ∀ row ∈ rows,
        Draws m t'.vars v parameters (fixedAt measured parameters point) left row)
      fun _ => True := by
  refine (Ends.mapM_of_moves (R := Proceeds m) (P := fun key (row : List (Coordinate α) × Nat) t' =>
    row.1 = key ∧ Draws m t'.vars v parameters (fixedAt measured parameters point) left row)
    (fun key row _ _ hp h => ⟨h.1, h.2.of_proceeds hi hp⟩) fun key hkey t₁ _ => ?_).mono ?_
      fun _ h => h
  · dsimp only
    rw [ends_bind, ends_check]
    refine ⟨fun full hfull => ?_, fun _ _ => trivial⟩
    -- the completed key is on the grid, so that it can be looked up later
    have hgrid : m.OnGridKey parameters full :=
      ((Model.onGridPoint_zip (Model.onGridKey_of_mem hd hkey)).override hpoint).key hfull
    rw [ends_bind]
    refine (((widens_proceeds m).variableAt (F := fun _ _ => True) m v full).ends t₁ |>.and
      (ends_variableAt_there (hgrid.beq_self hd))).mono ?_ fun _ _ => trivial
    rintro i t₂ ⟨hp, e, he, hget⟩
    exact (ends_pure _).2 ⟨hp, rfl, e, full, he, hgrid, hget, completes_of_key hfull⟩
  · rintro rows t₁ ⟨hp, hrows⟩
    refine ⟨hp, ?_, fun row hrow => ?_⟩
    · have hkeys : List.Forall₂ Eq (m.gridKeys left) (rows.map (·.1)) :=
        List.forall₂_map_right_iff.2 (hrows.imp fun _ _ h => h.1.symm)
      exact (List.forall₂_eq_eq_eq ▸ hkeys).symm
    · obtain ⟨_, -, -, hdraws⟩ := exists_left_of_mem hrows hrow
      exact hdraws

/-- All reduced variables stay drawn. -/
def KeepsDrawn (m : Model α) (t t' : Transcription α (Coordinate α)) : Prop :=
  AllDrawn m t → AllDrawn m t'

instance : IsPreorder (Transcription α (Coordinate α)) (KeepsDrawn m) where
  refl _ := id
  trans _ _ _ h h' := h' ∘ h

/-- The reduced variables that a measure records are drawn. -/
theorem moves_reduce_drawn (hs : m.Sound) (hd : m.Defined) (hg : m.OnGrid) {μ : Measure α}
    {points : List (List α)} (hμ : m.measure ref = .ok μ)
    (hpoints : roundedPoints m μ.data = .ok points) :
    Moves (KeepsDrawn m) (reduce m μ.function μ.data.parameters points) fun _ _ => True := by
  have hshaped : m.Shaped := fun ref μ hμ => (hs.measure _ μ (Model.measure_eq_ok.1 hμ).2.2).2.1
  unfold reduce
  refine .ite (moves_check_bind fun ⟨name, parameters⟩ hi => ?_) (.pure _)
  refine .ite (Moves.bind (.forIn_of_mem (fun point hpoint _ => ?_) _) fun _ => .pure _) (.pure _)
  refine Moves.of_keeps_ok fun t ht => ?_
  rw [ends_bind, ends_get, ends_ite]
  refine ⟨fun _ => (ends_pure _).2 ht, fun _ => ?_⟩
  rw [ends_bind]
  refine (ends_keys ht.snapshot _).mono ?_ fun _ h => h
  rintro keys _ ⟨rfl, rfl⟩
  rw [ends_bind]
  refine (ends_drawRows hd hi (onAxis_of_roundedPoints hs hg hμ hpoints point hpoint)).mono ?_
    fun _ h => h
  rintro rows t₁ ⟨hp, hkeys, hrows⟩
  rw [ends_bind]
  refine (Widens.ends_foldlM_insert t₁ rows Entry.distinct_blank).mono ?_ fun _ _ => trivial
  rintro entry _ ⟨rfl, hleft, hentry, hdistinct⟩
  rw [ends_bind, ends_modify]
  have ht₁ := ht.of_proceeds hp
  refine (ends_pure _).2 ⟨ht₁.snapshot, fun r hr => ?_⟩
  rcases List.mem_append.1 hr with hr | hr
  · exact ht₁.reduced r hr
  obtain rfl := List.mem_singleton.1 hr
  -- the measured parameters are fixed, and the others are left
  have hfixed := Model.map_fst_fixedAt hshaped hμ hpoints hpoint parameters
  refine ⟨?_, hdistinct, name, parameters, hi, ?_, fun row hrow => ?_⟩
  · rw [Entry.keys, hentry, ReducedVariable.parameters, hleft]
    exact hkeys
  · change entry.parameters = parameters.filter
      (· ∉ (fixedAt μ.data.parameters parameters point).map (·.1))
    rw [hfixed, hleft]
    exact List.filter_congr fun p hp => by simp [hp]
  · rw [ReducedVariable.parameters, hleft]
    exact hrows row (by rwa [hentry] at hrow)

/-- Every change on the way to a transcription keeps reduced variables drawn from their
variables. -/
theorem admits_keepsDrawn (hs : m.Sound) (hd : m.Defined) (hg : m.OnGrid) :
    Admits m (KeepsDrawn m) fun _ _ => True where
  entry t _ _ hgrown h := h.of_proceeds ((widens_proceeds m).entry t hgrown)
  append t v h := h.of_proceeds ((widens_proceeds m).append t v)
  constraintStart t _ _ own h := h.of_proceeds ⟨(admits_develops m).constraintStart t own, rfl, rfl⟩
  constraintEntry t _ _ _ own hgrown h :=
    h.of_proceeds ⟨(admits_develops m).constraintEntry t own hgrown, rfl, rfl⟩
  evaluationStart t _ _ own h := h.of_proceeds ⟨(admits_develops m).evaluationStart t own, rfl, rfl⟩
  evaluationEntry t _ _ _ own hgrown h :=
    h.of_proceeds ⟨(admits_develops m).evaluationEntry t own hgrown, rfl, rfl⟩
  constraint t c h := h.of_proceeds ⟨(admits_develops m).constraint t c, rfl, rfl⟩
  measureEntry t _ _ own missing h :=
    h.of_proceeds ⟨(admits_develops m).measureEntry t own missing, rfl, rfl⟩
  record hμ hpoints own key result := by
    -- remembering the expression touches no variable
    have remembers : ∀ (t : Transcription α (Coordinate α)) ref e,
        KeepsDrawn m t { t with measures := t.measures.set ref e } := fun t _ _ h =>
      ⟨h.snapshot, h.reduced⟩
    refine Moves.bind ⟨fun t => ends_measureEntry_of (fun _ _ => id) fun _ => remembers t _ _⟩
      fun entry => (moves_insert _ _ _).bind fun _ => Moves.bind (.modify fun t => remembers t _ _)
        fun _ => (moves_reduce_drawn hs hd hg hμ hpoints).bind fun _ => .pure _

end Lawful

end Building

/-! ## Look-ups -/

/-- A reference stands for a recorded reduced variable, which has the keys of the parameters that
are left, and at each of them the finite variable that its variable has at the key that completes
it. -/
structure Model.Projects (m : Model α) (t : Transcription α) (ref : Ref) (r : ReducedVariable α) :
    Prop where
  resolved : m.reducedVariable ref = .ok r
  entry : m.resolve .builtin .vars ref = .ok (t, r.entry.map .index)
  projected : ∃ name parameters, m.indexed r.ref = .ok (name, parameters) ∧
    r.parameters = parameters.filter (· ∉ r.fixed.map (·.1)) ∧
    r.entry.keys = m.grid r.parameters ∧
    ∀ key ∈ r.entry.keys, ∃ full, Completes r.fixed r.parameters parameters key full ∧
      ∀ own other : Tensor α, own.entries = key → own.shape.length ≤ 1 → other.entries = full →
        other.shape.length ≤ 1 → ∃ c, m.lookup .builtin ref own = .ok c ∧
          m.lookup .builtin r.ref other = .ok c

/-- A reduced variable of an attached transcription points into its variable. -/
theorem Building.Drawn.projects {m : Model α} (hd : m.Defined) {verbose : Bool}
    {t : Transcription α (Coordinate α)}
    (ht : m.transcription = some (t.mapKeys (·.value))) (hlaid : LaidOut m verbose t) {i : Nat}
    {r : ReducedVariable α (Coordinate α)} (hr : t.reduced[i]? = some r)
    (h : Drawn m t.vars r) :
    m.Projects (t.mapKeys (·.value)) (m.ref .reducedVariable i) (r.mapKeys (·.value)) := by
  obtain ⟨hkeys, hdistinct, name, parameters, hi, hleft, hrows⟩ := h
  have hlive := Model.isValid_of_indexed hi
  have hfound : (t.mapKeys (·.value)).reduced[i]? = some (r.mapKeys (·.value)) := by
    rw [Transcription.mapKeys, List.getElem?_map, hr]
    rfl
  obtain ⟨hlt, hget⟩ := List.getElem?_eq_some_iff.1 hfound
  have hresolve := Model.resolve_of_recorded ht hlt (by rwa [hget])
  have hgrid : (r.mapKeys (·.value)).entry.keys = m.grid r.parameters := by
    rw [ReducedVariable.mapKeys, Entry.keys_mapKeys, hkeys, Model.map_value_gridKeys]
  rw [hget] at hresolve
  refine ⟨hget ▸ Model.reducedVariable_of_recorded ht hlt (by rwa [hget]), hresolve, name,
    parameters, hi, hleft, hgrid, fun key hkey => ?_⟩
  have hself := Model.beq_self_of_mem_grid hd (hgrid ▸ hkey)
  obtain ⟨row, hrow, rfl⟩ := List.mem_map.1 hkey
  obtain ⟨row, hrow', rfl⟩ := List.mem_map.1 hrow
  obtain ⟨e, full, he, honGrid, hfull, hcompletes⟩ := hrows row hrow'
  refine ⟨full.map Coordinate.value, hcompletes, fun own other hown hownShape hother hotherShape =>
    ⟨.index row.2, Model.lookup_of_resolve hresolve hownShape ?_, ?_⟩⟩
  · rw [hown, Entry.get?_map]
    exact congrArg _ (Entry.get?_of_mem (hdistinct.mapKeys Coordinate.map_value_ne) hrow hself)
  · -- the variable itself is found by its own entry, whose keys are on the grid as the key is
    have hk := Model.kind_of_indexed hi
    have hquery : Query.ofKind r.ref.kind = .vars := by
      rcases hk with hk | hk <;> rw [hk] <;> rfl
    refine Model.lookup_of_resolve (t := t.mapKeys (·.value)) (hquery ▸ Model.resolve_of_group ht
      (Query.handler_vars (List.mem_pair.2 hk))
      (Entries.get?_map _ (Entries.get?_mapKeys_of_some _ he))) hotherShape ?_
    rw [hother, Entry.get?_map, Model.get?_mapKeys hd (hlaid.onGridKey hd hi he) honGrid, hfull]
    rfl

/-- The reduced variables of a complete transcription are drawn from variables that are laid out. -/
theorem Building.drawn_of_run [LawfulScalar α] {m : Model α} (hs : m.Sound) (hd : m.Defined)
    (hg : m.OnGrid) {verbose : Bool} {t : Transcription α (Coordinate α)}
    (hrun : run m (m.blank verbose) = .ok () t) : LaidOut m verbose t ∧ AllDrawn m t := by
  have hlaid := ends_run_of_respects hs hd hg verbose (fun _ _ _ _ => True) fun _ _ =>
    ⟨fun _ _ _ => trivial, fun _ _ _ _ => trivial, fun _ _ _ _ _ _ _ _ _ _ => trivial,
      fun _ _ _ _ _ _ _ _ _ _ _ _ _ _ => trivial, fun _ _ _ _ _ _ => trivial⟩
  have hdrawn := (admits_keepsDrawn hs hd hg).run.ends (m.blank verbose)
  exact ⟨(hlaid.of_ok hrun).1, hdrawn.of_ok hrun ⟨rfl, nofun⟩⟩

/-- After a build of any model that comes about by requests, if all supports are defined and point
variables and measures are on the grid, there is one reference for each recorded reduced variable,
in order. It is found with the keys of the parameters that are left, and looking it up at a key
gives what looking up its variable gives at the key that completes this one. -/
theorem projected_of_build [LawfulScalar α] {m : Model α} (h : Requested m) {e : Environment α}
    {verbose : Option Bool} {t : Transcription α} {w' : Workspace α}
    (hbuild : Transcription.build verbose ⟨e, m⟩ = .ok t w') (hd : w'.model.Defined)
    (hg : w'.model.OnGrid) :
    ∃ refs, w'.model.reducedRefs = .ok refs ∧
      List.Forall₂ (w'.model.Projects t) refs t.reduced := by
  obtain ⟨w₁, -, -, ⟨verbose', ht⟩, hmodel⟩ := exists_of_build hbuild
  -- the model is marked as ready after it was transcribed, which transcription does not see
  have htranscribe : w'.model.transcribe verbose' = .ok t := by
    rw [hmodel, Model.transcribe_markReady, ht]
  have hattached : w'.model.transcription = some t := by
    rw [hmodel]
    rfl
  obtain ⟨t, hrun, rfl⟩ := Model.transcribe_eq_ok.1 htranscribe
  obtain ⟨hlaid, hdrawn⟩ := Building.drawn_of_run (h.build hbuild).sound hd hg hrun
  refine ⟨_, Except.bind_eq_ok.2 ⟨_, by rw [Model.transcribed, hattached]; rfl, rfl⟩, ?_⟩
  rw [List.forall₂_map_left_iff, Transcription.mapKeys, List.forall₂_map_right_iff,
    List.forall₂_iff_get]
  refine ⟨by simp, fun i hi hi' => ?_⟩
  rw [List.get_eq_getElem, List.get_eq_getElem, List.getElem_range]
  exact (hdrawn.reduced _ (List.getElem_mem _)).projects hd hattached hlaid
    (List.getElem?_eq_getElem hi')

/-- A measure fixes the last and the first parameter of a variable, in this order, so the one that
is left stands between them. -/
theorem projected_of_build_between :
    let a : Ref := ⟨0, .parameter, 1⟩
    let b : Ref := ⟨0, .parameter, 2⟩
    let c : Ref := ⟨0, .parameter, 3⟩
    let x : Ref := ⟨0, .infiniteVariable, 1⟩
    let parameter (name : String) : Request ℚ := .addParameter (.scalar (.interval 0 1)) name
      (some [0, 1]) 0 (some 6) (.finiteDifference .backward)
    let data : MeasureData ℚ :=
      ⟨[c, a], [1, 1], [[1, 1 / 2], [0, 1]], [], .uniformGrid, .unit, "data"⟩
    let m : Model ℚ := Request.replay { id := 0 }
      [parameter "a", parameter "b", parameter "c",
      .addInfiniteVariable "x" [.given a, .given b, .given c] none none .none false,
      .addMeasure (.given x) data ⟨rfl, by simp [data]⟩ "over c and a"]
    Requested m ∧ ∃ t w', Transcription.build none ⟨{}, m⟩ = .ok t w' ∧ w'.model.Defined ∧
      w'.model.OnGrid ∧ t.reduced.map (fun r => (r.fixed, r.parameters, r.entry.keys)) =
        [([(c, 1), (a, 0)], [b], [[0], [1]]), ([(c, 1 / 2), (a, 1)], [b], [[0], [1]])] ∧
      ∃ refs, w'.model.reducedRefs = .ok refs ∧
        List.Forall₂ (w'.model.Projects t) refs t.reduced := by
  intro a b c x parameter data m
  have hr : Requested m := .replay (.start 0 "model") _
  have hrun : (match Transcription.build none ⟨{}, m⟩ with
    | .ok t w' => w'.model.isUnderived && decide (t.reduced.map (fun r =>
        (r.fixed, r.parameters, r.entry.keys)) =
          [([(c, 1), (a, 0)], [b], [[0], [1]]), ([(c, 1 / 2), (a, 1)], [b], [[0], [1]])])
    | .error _ _ => false) = true := by decide +kernel
  split at hrun
  · rename_i t w' hbuild
    obtain ⟨hunderived, hreduced⟩ := Bool.and_eq_true_iff.1 hrun
    have hd : w'.model.Defined := .of_exact _
    have hg : w'.model.OnGrid :=
      onGrid_of_build hr hbuild hd (Model.labelsApart_of_underived hunderived)
    exact ⟨hr, t, w', hbuild, hd, hg, of_decide_eq_true hreduced,
      projected_of_build hr hbuild hd hg⟩
  · cases hrun

end Discretization
