import Discretization.Proofs.Grids
import Discretization.Proofs.Preparations

/-!
# The Layout of a Transcription

The first pass makes one finite variable for each finite variable of the model, and then, for every
infinite variable and derivative, one for each key of its grid. The variables of one object stand
side by side, so an object owns a block of positions that starts where the blocks before it end.
Point variables own no variables: they stand for those of their infinite variables.

## Main definitions

* `Model.owners`, `Model.block`, `Model.start`: who owns variables, which, and from where on;
* `Building.Laid`: the variables of some owners are in place;
* `Building.LaidOut`: the variables of all owners are in place, and point variables stand for them.

## Main results

* `Building.ends_vars`: the first pass lays out the variables.
-/

namespace Discretization

variable {α : Type} [Scalar α]

/-! ## Blocks -/

namespace Model

variable {m : Model α} {ref : Ref}

/-- The objects that own finite variables, in the order of their blocks. -/
def owners (m : Model α) : List Ref :=
  m.liveRefs .finiteVariable ++ (m.liveRefs .infiniteVariable ++ m.liveRefs .derivative)

/-- The parameters of an infinite variable or derivative; other objects have none. -/
def spanned (m : Model α) (ref : Ref) : List Ref :=
  match m.indexed ref with
  | .ok (_, parameters) => parameters
  | .error _ => []

/-- The finite variables that an object owns. -/
def block (m : Model α) (verbose : Bool) (ref : Ref) : List (FiniteVariable α) :=
  match m.indexed ref, m.finiteVariable ref with
  | .ok (base, parameters), _ =>
    (m.gridKeys parameters).mapIdx fun i key =>
      Building.finiteVariable m ref (Building.counterpartName verbose base key i) key
  | _, .ok v => [v]
  | _, _ => []

/-- The number of finite variables that some objects own: where the next block starts. -/
def start (m : Model α) (refs : List Ref) : Nat :=
  (refs.map fun ref => (m.grid (m.spanned ref)).length).sum

omit [Scalar α] in
theorem spanned_of_indexed {name : String} {parameters : List Ref}
    (h : m.indexed ref = .ok (name, parameters)) : m.spanned ref = parameters := by
  rw [spanned, h]

omit [Scalar α] in
theorem indexed_ne_ok_of_finite {v : FiniteVariable α} (h : m.finiteVariable ref = .ok v)
    (found : String × List Ref) : m.indexed ref ≠ .ok found := by
  intro hi
  have hk := (finiteVariable_eq_ok.1 h).2.1
  rcases kind_of_indexed hi with hk' | hk' <;> rw [hk] at hk' <;> cases hk'

omit [Scalar α] in
theorem spanned_of_finite {v : FiniteVariable α} (h : m.finiteVariable ref = .ok v) :
    m.spanned ref = [] := by
  rw [spanned]
  cases hi : m.indexed ref with
  | ok found => exact absurd hi (indexed_ne_ok_of_finite h found)
  | error e => rfl

theorem block_of_indexed {verbose : Bool} {name : String} {parameters : List Ref}
    (h : m.indexed ref = .ok (name, parameters)) :
    m.block verbose ref = (m.gridKeys parameters).mapIdx fun i key =>
      Building.finiteVariable m ref (Building.counterpartName verbose name key i) key := by
  rw [block, h]

theorem block_of_finite {verbose : Bool} {v : FiniteVariable α}
    (h : m.finiteVariable ref = .ok v) : m.block verbose ref = [v] := by
  rw [block, h]
  cases hi : m.indexed ref with
  | ok found => exact absurd hi (indexed_ne_ok_of_finite h found)
  | error e => rfl

omit [Scalar α] in
theorem length_gridKeys (m : Model α) (parameters : List Ref) :
    (m.gridKeys parameters).length = (m.grid parameters).length := by
  rw [← map_value_gridKeys, List.length_map]

omit [Scalar α] in
/-- An owner is a finite variable or it is found with its parameters. -/
theorem mem_owners : ref ∈ m.owners ↔
    (∃ v, m.finiteVariable ref = .ok v) ∨
      ∃ name parameters, m.indexed ref = .ok (name, parameters) := by
  rw [owners, List.mem_append, mem_liveRefs_finiteVariable, mem_liveRefs_indexed]

omit [Scalar α] in
/-- Point variables own nothing. -/
theorem kind_ne_of_mem_owners (h : ref ∈ m.owners) : ref.kind ≠ .pointVariable := by
  rcases mem_owners.1 h with ⟨v, hv⟩ | ⟨name, parameters, hi⟩
  · rw [(finiteVariable_eq_ok.1 hv).2.1]
    decide
  · rcases kind_of_indexed hi with hk | hk <;> rw [hk] <;> decide

/-- An owner has as many variables as its grid has keys. -/
theorem length_block {verbose : Bool} (h : ref ∈ m.owners) :
    (m.block verbose ref).length = (m.grid (m.spanned ref)).length := by
  rcases mem_owners.1 h with ⟨v, hv⟩ | ⟨name, parameters, hi⟩
  · rw [block_of_finite hv, spanned_of_finite hv]
    rfl
  · rw [block_of_indexed hi, spanned_of_indexed hi, List.length_mapIdx, length_gridKeys]

/-- The blocks of some owners end where the next one starts. -/
theorem length_blocks {verbose : Bool} {refs : List Ref} (h : refs ⊆ m.owners) :
    (refs.flatMap (m.block verbose)).length = m.start refs := by
  rw [List.length_flatMap, start]
  congr 1
  exact List.map_congr_left fun ref href => length_block (h href)

theorem nodup_owners (hs : m.Sound) : m.owners.Nodup := by
  have kind : ∀ {k : EntityKind} {r : Ref}, r ∈ m.liveRefs k → r.kind = k := fun hr =>
    (mem_liveRefs.1 hr).2.1
  refine List.nodup_append.2 ⟨nodup_liveRefs hs.finiteVariables.nodup,
    List.nodup_append.2 ⟨nodup_liveRefs hs.infiniteVariables.nodup,
      nodup_liveRefs hs.derivatives.nodup, ?_⟩, ?_⟩
  · rintro r hr _ hr' rfl
    have := (kind hr).symm.trans (kind hr')
    cases this
  · rintro r hr _ hr' rfl
    rcases List.mem_append.1 hr' with hr' | hr'
    · have := (kind hr).symm.trans (kind hr')
      cases this
    · have := (kind hr).symm.trans (kind hr')
      cases this

end Model

/-- The entry of an owner whose variables start at a position. -/
def Model.ownEntry (m : Model α) (ref : Ref) (start : Nat) : Entry (Coordinate α) Nat :=
  { parameters := m.spanned ref, rows := (m.gridKeys (m.spanned ref)).zipIdx start }

namespace Entry

/-- The entry of an object without parameters. -/
def single {κ β : Type} (b : β) : Entry κ β :=
  { parameters := [], rows := [([], b)] }

variable {κ β : Type} [BEq κ] {e : Entry κ β} {key : List κ}

/-- A key has a position if it equals one that is there. -/
theorem position?_eq_none : e.position? key = none ↔ ∀ row ∈ e.rows, (row.1 == key) = false := by
  rw [position?, List.findIdx?_eq_none_iff]

theorem get?_eq_none : e.get? key = none ↔ ∀ row ∈ e.rows, (row.1 == key) = false := by
  rw [get?, Option.map_eq_none_iff, List.find?_eq_none]
  simp

/-- What is found at a key stands in the row of an equal key. -/
theorem exists_row_of_get? {b : β} (h : e.get? key = some b) :
    ∃ k, (k, b) ∈ e.rows ∧ (k == key) = true := by
  rw [get?, Option.map_eq_some_iff] at h
  obtain ⟨⟨k, c⟩, hfind, rfl⟩ := h
  have hk := List.find?_some hfind
  exact ⟨k, List.mem_of_find?_eq_some hfind, hk⟩

end Entry

namespace Building

open Transcription

variable {β γ : Type} {m : Model α} {t : Transcription α (Coordinate α)} {ref : Ref}
  {parameters : List Ref} {key : List (Coordinate α)} {base : String}
  {fail : Transcription α (Coordinate α) → Prop}

/-! ## Entries step by step -/

section Steps

omit [Scalar α] in
theorem ends_variableEntry_some {e : Entry (Coordinate α) Nat}
    {ok : Entry (Coordinate α) Nat → Transcription α (Coordinate α) → Prop}
    (h : t.vars.get? ref = some e) :
    Ends (variableEntry ref parameters) t ok fail ↔ ok e t := by
  unfold variableEntry
  rw [ends_bind, ends_get, h]
  exact ends_pure e

omit [Scalar α] in
theorem ends_variableEntry_none
    {ok : Entry (Coordinate α) Nat → Transcription α (Coordinate α) → Prop}
    (h : t.vars.get? ref = none) :
    Ends (variableEntry ref parameters) t ok fail ↔
      ok { parameters } { t with vars := t.vars.set ref { parameters } } := by
  unfold variableEntry
  rw [ends_bind, ends_get, h]
  dsimp only
  rw [ends_bind, ends_modify, ends_pure]

/-- A key that is not there yet is appended. -/
theorem ends_insert {e : Entry (Coordinate α) β} {c : β}
    {ok : Entry (Coordinate α) β → Transcription α (Coordinate α) → Prop}
    (h : ∀ row ∈ e.rows, (row.1 == key) = false) :
    Ends (insert e key c) t ok fail ↔ ok { e with rows := e.rows ++ [(key, c)], memo := [] } t := by
  unfold insert Entry.insert?
  rw [Entry.position?_eq_none.2 h]
  exact ends_pure _

omit [Scalar α] in
theorem check_ok (b : β) : (check (.ok b : Except (Error α) β)) = pure b := rfl

/-- A counterpart that was made before is found. -/
theorem ends_variableAt_of_get? {ok : Nat → Transcription α (Coordinate α) → Prop}
    {e : Entry (Coordinate α) Nat} {i : Nat} (hi : m.indexed ref = .ok (base, parameters))
    (he : t.vars.get? ref = some e) (hk : e.get? key = some i) :
    Ends (variableAt m ref key) t ok fail ↔ ok i t := by
  unfold variableAt
  rw [hi, check_ok, pure_bind]
  dsimp only
  rw [ends_bind, ends_variableEntry_some he, hk]
  exact ends_pure i

/-- A counterpart is made at a key where there is none. -/
theorem ends_variableAt_new {ok : Nat → Transcription α (Coordinate α) → Prop}
    {e : Entry (Coordinate α) Nat} (hi : m.indexed ref = .ok (base, parameters))
    (he : t.vars.get? ref = some e) (hk : ∀ row ∈ e.rows, (row.1 == key) = false) :
    Ends (variableAt m ref key) t ok fail ↔ ok t.finite.vars.length
      { t with
        finite := { t.finite with vars := t.finite.vars ++
          [finiteVariable m ref (counterpartName t.verbose base key e.size) key] }
        vars := t.vars.set ref
          { e with rows := e.rows ++ [(key, t.finite.vars.length)], memo := [] } } := by
  unfold variableAt
  rw [hi, check_ok, pure_bind]
  dsimp only
  rw [ends_bind, ends_variableEntry_some he, Entry.get?_eq_none.2 hk]
  simp only [ends_bind, ends_get, ends_appendVariable, ends_insert hk, ends_modify, ends_pure]

/-- A finite variable of the model gets one of its own. -/
theorem ends_singleVariable_finite {ok : Nat → Transcription α (Coordinate α) → Prop}
    {v : FiniteVariable α} (hv : m.finiteVariable ref = .ok v) (hnone : t.vars.get? ref = none) :
    Ends (singleVariable m ref) t ok fail ↔ ok t.finite.vars.length
      { t with
        finite := { t.finite with vars := t.finite.vars ++ [v] }
        vars := (t.vars.set ref { parameters := [] }).set ref (.single t.finite.vars.length) } := by
  have hk : ref.kind ≠ .pointVariable := by
    rw [(Model.finiteVariable_eq_ok.1 hv).2.1]
    decide
  unfold singleVariable
  rw [ends_bind, ends_variableEntry_none hnone]
  simp only [Entry.isFinite, List.isEmpty_nil, if_neg hk, hv, check_ok, pure_bind, ends_bind,
    ends_appendVariable]
  rw [ends_insert (by simp), ends_modify, ends_pure]
  rfl

/-- A point variable stands for the finite variable that is there at its values. -/
theorem ends_singleVariable_point {ok : Nat → Transcription α (Coordinate α) → Prop}
    {v : PointVariable α} {e : Entry (Coordinate α) Nat} {i : Nat}
    (hv : m.pointVariable ref = .ok v) (hnone : t.vars.get? ref = none)
    (hi : m.indexed v.ref = .ok (base, parameters)) (he : t.vars.get? v.ref = some e)
    (hget : e.get? (Coordinate.ofValues v.values) = some i) :
    Ends (singleVariable m ref) t ok fail ↔ ok i
      { t with vars := (t.vars.set ref { parameters := [] }).set ref (.single i) } := by
  have hk := (Model.pointVariable_eq_ok.1 hv).2.1
  -- the variable of the point is in place and the point is not
  have hne : v.ref ≠ ref := by
    rintro h
    rw [h, hnone] at he
    cases he
  have he' : (t.vars.set ref { parameters := [] }).get? v.ref = some e := by
    rw [Entries.get?_set_of_ne _ _ hne, he]
  unfold singleVariable
  rw [ends_bind, ends_variableEntry_none hnone]
  simp only [Entry.isFinite, List.isEmpty_nil, if_pos hk, hv, check_ok, pure_bind, ends_bind]
  rw [ends_variableAt_of_get? hi he' hget]
  rw [ends_insert (by simp), ends_modify, ends_pure]
  rfl

/-- What stands for a finite or point variable is found again. -/
theorem ends_singleVariable_some {ok : Nat → Transcription α (Coordinate α) → Prop} {i : Nat}
    (he : t.vars.get? ref = some (.single i)) :
    Ends (singleVariable m ref) t ok fail ↔ ok i t := by
  unfold singleVariable
  rw [ends_bind, ends_variableEntry_some he]
  exact ends_pure i

end Steps

/-! ## Laying out variables -/

/-- The variables of some owners are in place, and nothing else has an entry. -/
structure Laid (m : Model α) (verbose : Bool) (gone : List Ref)
    (t : Transcription α (Coordinate α)) : Prop where
  snapshot : t.snapshot = m.snapshot
  naming : t.verbose = verbose
  measures : t.measures = []
  finite : t.finite.vars = gone.flatMap (m.block verbose)
  entries : ∀ before ref after, gone = before ++ ref :: after →
    t.vars.get? ref = some (m.ownEntry ref (m.start before))
  others : ∀ ref, ref ∉ gone → t.vars.get? ref = none

/-- The variables of one more owner are in place. -/
theorem Laid.snoc {verbose : Bool} {gone : List Ref} {t t' : Transcription α (Coordinate α)}
    (h : Laid m verbose gone t) (href : ref ∉ gone) (hsnapshot : t'.snapshot = t.snapshot)
    (hnaming : t'.verbose = t.verbose) (hmeasures : t'.measures = t.measures)
    (hfinite : t'.finite.vars = t.finite.vars ++ m.block verbose ref)
    (hentry : t'.vars.get? ref = some (m.ownEntry ref (m.start gone)))
    (hothers : ∀ r, r ≠ ref → t'.vars.get? r = t.vars.get? r) :
    Laid m verbose (gone ++ [ref]) t' where
  snapshot := hsnapshot.trans h.snapshot
  naming := hnaming.trans h.naming
  measures := hmeasures.trans h.measures
  finite := by rw [hfinite, h.finite, List.flatMap_append, List.flatMap_singleton]
  entries before r after hsplit := by
    -- the last owner is the new one, any other is an owner from before
    rcases List.eq_nil_or_concat after with rfl | ⟨after, last, rfl⟩
    · obtain ⟨rfl, hr⟩ := List.append_inj' hsplit rfl
      cases hr
      exact hentry
    · rw [List.concat_eq_append, ← List.cons_append, ← List.append_assoc] at hsplit
      obtain ⟨hgone, -⟩ := List.append_inj' hsplit rfl
      have hr : r ≠ ref := by
        rintro rfl
        exact href (by simp [hgone])
      rw [hothers r hr]
      exact h.entries before r after hgone
  others r hr := by
    simp only [List.mem_append, List.mem_singleton, not_or] at hr
    rw [hothers r hr.2]
    exact h.others r hr.1

/-- The keys of an owner are gone through: those behind have their variables. -/
structure Filling (m : Model α) (ref : Ref) (base : String) (parameters : List Ref)
    (t₀ : Transcription α (Coordinate α)) (keys : List (List (Coordinate α)))
    (t : Transcription α (Coordinate α)) : Prop where
  snapshot : t.snapshot = t₀.snapshot
  naming : t.verbose = t₀.verbose
  measures : t.measures = t₀.measures
  finite : t.finite.vars = t₀.finite.vars ++ keys.mapIdx fun i key =>
    finiteVariable m ref (counterpartName t₀.verbose base key i) key
  entry : t.vars.get? ref =
    some { parameters := parameters, rows := keys.zipIdx t₀.finite.vars.length }
  others : ∀ r, r ≠ ref → t.vars.get? r = t₀.vars.get? r

/-- One more key gets its variable. -/
theorem Filling.step {t₀ : Transcription α (Coordinate α)} {keys : List (List (Coordinate α))}
    (h : Filling m ref base parameters t₀ keys t) (hi : m.indexed ref = .ok (base, parameters))
    (hkey : ∀ k ∈ keys, (k == key) = false) :
    Ends (variableAt m ref key) t (fun _ t' => Filling m ref base parameters t₀ (keys ++ [key]) t')
      fail := by
  rw [ends_variableAt_new hi h.entry]
  · have hsize : t.finite.vars.length = t₀.finite.vars.length + keys.length := by
      rw [h.finite, List.length_append, List.length_mapIdx]
    refine ⟨h.snapshot, h.naming, h.measures, ?_, ?_, fun r hr => ?_⟩
    · rw [List.mapIdx_append, ← List.append_assoc, ← h.finite]
      simp [Entry.size, h.naming]
    · rw [Entries.get?_set_self, List.zipIdx_append, hsize]
      simp
    · rw [Entries.get?_set_of_ne _ _ hr, h.others r hr]
  · rintro ⟨k, i⟩ hrow
    obtain ⟨-, -, hk⟩ := List.mem_zipIdx hrow
    exact hkey k (hk ▸ List.getElem_mem _)

/-- A finite variable is laid out. -/
theorem Laid.single {verbose : Bool} {gone : List Ref} (h : Laid m verbose gone t)
    (hgone : gone ⊆ m.owners) (href : ref ∉ gone) {v : FiniteVariable α}
    (hv : m.finiteVariable ref = .ok v) :
    Ends (singleVariable m ref) t (fun _ t' => Laid m verbose (gone ++ [ref]) t') fail := by
  rw [ends_singleVariable_finite hv (h.others ref href)]
  refine h.snoc href rfl rfl rfl ?_ ?_ fun r hr => ?_
  · rw [Model.block_of_finite hv]
  · rw [Entries.get?_set_self, Model.ownEntry, Model.spanned_of_finite hv, h.finite,
      Model.length_blocks hgone]
    rfl
  · rw [Entries.get?_set_of_ne _ _ hr, Entries.get?_set_of_ne _ _ hr]

variable [LawfulScalar α]

/-- An infinite variable or derivative is laid out: all keys of the grid are new. -/
theorem Laid.indexed {verbose : Bool} {gone : List Ref} (hs : m.Sound) (hd : m.Defined)
    (h : Laid m verbose gone t) (hgone : gone ⊆ m.owners) (href : ref ∉ gone)
    (hi : m.indexed ref = .ok (base, parameters)) :
    Ends (do
        let (_, parameters) ← check (m.indexed ref)
        let _ ← variableEntry ref parameters
        for key in ← keys parameters do
          let _ ← variableAt m ref key
        return ForInStep.yield PUnit.unit) t
      (fun r t' => r = .yield ⟨⟩ ∧ Laid m verbose (gone ++ [ref]) t') fun _ => True := by
  let t₁ : Transcription α (Coordinate α) := { t with vars := t.vars.set ref { parameters } }
  have hstart : Filling m ref base parameters t [] t₁ :=
    ⟨rfl, rfl, rfl, by simp [t₁], Entries.get?_set_self _ _ _,
      fun r hr => Entries.get?_set_of_ne _ _ hr⟩
  rw [hi, check_ok, pure_bind]
  dsimp only
  rw [ends_bind, ends_variableEntry_none (h.others ref href), ends_bind]
  refine (ends_keys (m := m) (t := t₁) h.snapshot parameters).mono ?_ fun _ _ => trivial
  rintro keys _ ⟨rfl, rfl⟩
  rw [ends_bind]
  refine (Ends.forIn (Filling m ref base parameters t) hstart ?_).mono ?_ fun _ h' => h'
  · intro keys key rest t' hsplit hfilling
    rw [ends_bind]
    refine (hfilling.step hi fun k hk => ?_).mono (fun _ t'' h' => (ends_pure _).2 ⟨rfl, h'⟩)
      fun _ h' => h'
    -- no key of the grid equals one before it, so each is a new row
    have hpairwise := Model.pairwise_gridKeys hs hd parameters
    rw [hsplit, List.pairwise_append] at hpairwise
    exact hpairwise.2.2 k hk key List.mem_cons_self
  · rintro _ t' hfilling
    rw [ends_pure]
    refine ⟨rfl, ?_⟩
    refine h.snoc href hfilling.snapshot hfilling.naming hfilling.measures ?_ ?_ hfilling.others
    · rw [hfilling.finite, Model.block_of_indexed hi, h.naming]
    · rw [hfilling.entry, Model.ownEntry, Model.spanned_of_indexed hi, h.finite,
        Model.length_blocks hgone]

end Building

/-! ## Point variables -/

namespace Model

variable {m : Model α} {ref : Ref} {parameters : List Ref} {key : List (Coordinate α)}

/-- Values that are supports of their parameters make a key on the grid. -/
theorem onGridKey_ofValues {values : List α}
    (h : List.Forall₂ (fun p x => ∃ y ∈ m.axis p, (y == x) = true) parameters values) :
    m.OnGridKey parameters (Coordinate.ofValues values) := by
  rw [OnGridKey, Coordinate.ofValues, List.forall₂_map_right_iff]
  exact h.imp fun p x hx => ⟨fun _ hplace => (by cases hplace), hx⟩

theorem mem_axis_of_contains {p : Ref} {q : Parameter α} {x : α}
    (hq : m.parameter (.given p) = .ok q) (h : q.supports.contains x = true) :
    ∃ y ∈ m.axis p, (y == x) = true := by
  rw [axis_eq hq]
  exact SupportMap.contains_iff.1 h

/-- The values of a point variable make a key on the grid of its variable. -/
theorem onGridKey_of_point (hs : m.Sound) (hg : m.OnGrid) {v : PointVariable α}
    (hv : m.pointVariable ref = .ok v) {name : String}
    (hi : m.indexed v.ref = .ok (name, parameters)) :
    m.OnGridKey parameters (Coordinate.ofValues v.values) := by
  obtain ⟨name', parameters', hi', hlength, -⟩ :=
    hs.point _ v (pointVariable_eq_ok.1 hv).2.2
  rw [hi] at hi'
  cases hi'
  refine onGridKey_ofValues (List.forall₂_iff_zip.2 ⟨hlength.symm, fun {p x} hx => ?_⟩)
  obtain ⟨q, hq⟩ := hs.live_of_indexed hi p (List.of_mem_zip hx).1
  exact mem_axis_of_contains hq (hg.points ref v hv name parameters hi p x hx q hq)

/-- An owner has a variable at every key on its grid. -/
theorem exists_get?_ownEntry (ref : Ref) (h : m.OnGridKey (m.spanned ref) key) (start : Nat) :
    ∃ i, (m.ownEntry ref start).get? key = some i := by
  obtain ⟨k, hk, hkey⟩ := exists_gridKey h
  obtain ⟨n, hn, rfl⟩ := List.mem_iff_getElem.1 hk
  cases hget : (m.ownEntry ref start).get? key with
  | some i => exact ⟨i, rfl⟩
  | none =>
    have hne := Entry.get?_eq_none.1 hget ((m.gridKeys (m.spanned ref))[n], start + n)
      (List.mem_iff_getElem.2 ⟨n, by simpa [ownEntry] using hn, by simp [ownEntry]⟩)
    rw [hkey] at hne
    cases hne

end Model

namespace Building

open Transcription

variable {m : Model α} {t : Transcription α (Coordinate α)} {ref : Ref} {verbose : Bool}

/-- The variables of all owners are in place, and point variables stand for those at their
values. -/
structure LaidOut (m : Model α) (verbose : Bool) (t : Transcription α (Coordinate α)) : Prop where
  snapshot : t.snapshot = m.snapshot
  naming : t.verbose = verbose
  finite : t.finite.vars = m.owners.flatMap (m.block verbose)
  entries : ∀ before ref after, m.owners = before ++ ref :: after →
    t.vars.get? ref = some (m.ownEntry ref (m.start before))
  points : ∀ ref v, m.pointVariable ref = .ok v → ∃ e i, t.vars.get? v.ref = some e ∧
    e.get? (Coordinate.ofValues v.values) = some i ∧ t.vars.get? ref = some (.single i)
  others : ∀ ref, ref ∉ m.owners → (∀ v, m.pointVariable ref ≠ .ok v) → t.vars.get? ref = none

/-- The keys of an infinite variable or derivative are on the grid. -/
theorem LaidOut.onGridKey (hd : m.Defined) (h : LaidOut m verbose t) {name : String}
    {parameters : List Ref} (hi : m.indexed ref = .ok (name, parameters))
    {e : Entry (Coordinate α) Nat} (he : t.vars.get? ref = some e) :
    ∀ row ∈ e.rows, m.OnGridKey parameters row.1 := by
  obtain ⟨before, after, hsplit⟩ :=
    List.append_of_mem (Model.mem_owners.2 (.inr ⟨name, parameters, hi⟩))
  rw [h.entries before ref after hsplit, Option.some.injEq] at he
  subst he
  intro row hrow
  rw [Model.ownEntry, Model.spanned_of_indexed hi] at hrow
  exact Model.onGridKey_of_mem hd (List.fst_mem_of_mem_zipIdx hrow)

/-- Once keys are lists of numbers, a point variable stands for the variable at its values. -/
theorem LaidOut.point (hs : m.Sound) (hd : m.Defined) (hg : m.OnGrid) (h : LaidOut m verbose t)
    {v : PointVariable α} (hv : m.pointVariable ref = .ok v) :
    ∃ (e : Entry α Nat) (i : Nat), (t.vars.mapKeys (·.value)).get? v.ref = some e ∧
      e.get? v.values = some i ∧ (t.vars.mapKeys (·.value)).get? ref = some (.single i) := by
  obtain ⟨e, i, he, hget, hpoint⟩ := h.points ref v hv
  obtain ⟨name, parameters, hi, -⟩ := hs.point _ v (Model.pointVariable_eq_ok.1 hv).2.2
  refine ⟨e.mapKeys (·.value), i, ?_, ?_, ?_⟩
  · exact Entries.get?_mapKeys_of_some _ he
  · rw [← hget, ← Model.get?_mapKeys hd (h.onGridKey hd hi he)
      (Model.onGridKey_of_point hs hg hv hi), Coordinate.map_value_ofValues]
  · exact Entries.get?_mapKeys_of_some _ hpoint

/-- Owners are in place, and so are some point variables. -/
structure Pointed (m : Model α) (verbose : Bool) (gone : List Ref)
    (t : Transcription α (Coordinate α)) : Prop where
  snapshot : t.snapshot = m.snapshot
  naming : t.verbose = verbose
  measures : t.measures = []
  finite : t.finite.vars = m.owners.flatMap (m.block verbose)
  entries : ∀ before ref after, m.owners = before ++ ref :: after →
    t.vars.get? ref = some (m.ownEntry ref (m.start before))
  points : ∀ ref ∈ gone, ∀ v, m.pointVariable ref = .ok v → ∃ e i, t.vars.get? v.ref = some e ∧
    e.get? (Coordinate.ofValues v.values) = some i ∧ t.vars.get? ref = some (.single i)
  others : ∀ ref, ref ∉ m.owners → ref ∉ gone → t.vars.get? ref = none

/-- One more point variable is in place. -/
theorem Pointed.step (hs : m.Sound) (hg : m.OnGrid) {gone : List Ref}
    (h : Pointed m verbose gone t) {v : PointVariable α} (hv : m.pointVariable ref = .ok v)
    (href : ref ∉ gone) :
    Ends (singleVariable m ref) t (fun _ t' => Pointed m verbose (gone ++ [ref]) t')
      fun _ => True := by
  obtain ⟨name, parameters, hi, -⟩ := hs.point _ v (Model.pointVariable_eq_ok.1 hv).2.2
  obtain ⟨before, after, hsplit⟩ :=
    List.append_of_mem (Model.mem_owners.2 (.inr ⟨name, parameters, hi⟩))
  have he := h.entries before v.ref after hsplit
  obtain ⟨i, hget⟩ := Model.exists_get?_ownEntry v.ref
    (by rw [Model.spanned_of_indexed hi]; exact Model.onGridKey_of_point hs hg hv hi)
    (m.start before)
  -- point variables own no finite variables
  have hother : ref ∉ m.owners := fun href =>
    Model.kind_ne_of_mem_owners href (Model.pointVariable_eq_ok.1 hv).2.1
  rw [ends_singleVariable_point hv (h.others ref hother href) hi he hget]
  -- only the entry of the point variable is written
  have hkept : ∀ r, r ≠ ref → ((t.vars.set ref { parameters := [] }).set ref (.single i)).get? r =
      t.vars.get? r := fun r hr => by
    rw [Entries.get?_set_of_ne _ _ hr, Entries.get?_set_of_ne _ _ hr]
  have hownerne : ∀ r ∈ m.owners, r ≠ ref := by
    rintro r hr rfl
    exact hother hr
  refine ⟨h.snapshot, h.naming, h.measures, h.finite, fun before r after hsplit => ?_,
    fun r hr v' hv' => ?_, fun r hr hr' => ?_⟩
  · rw [hkept r (hownerne r (hsplit ▸ by simp))]
    exact h.entries before r after hsplit
  · rcases List.mem_append.1 hr with hr | hr
    · -- the variable of an earlier point has an entry, so it is not this point either
      obtain ⟨e', i', he', hget', hr'⟩ := h.points r hr v' hv'
      have hne : v'.ref ≠ ref := by
        rintro heq
        rw [heq, h.others ref hother href] at he'
        cases he'
      refine ⟨e', i', by rw [hkept _ hne, he'], hget', ?_⟩
      rw [hkept r fun heq => href (heq ▸ hr)]
      exact hr'
    · obtain rfl := List.mem_singleton.1 hr
      rw [hv] at hv'
      cases hv'
      exact ⟨_, i, by rw [hkept _ (hownerne _ (hsplit ▸ by simp)), he], hget,
        Entries.get?_set_self _ _ _⟩
  · simp only [List.mem_append, List.mem_singleton, not_or] at hr'
    rw [hkept r hr'.2]
    exact h.others r hr hr'.1

/-- What follows from the finite variables, infinite variables and derivatives being laid out, with
the point variables still to come. -/
theorem ends_vars_of [LawfulScalar α] (hs : m.Sound) (hd : m.Defined)
    {ok : Unit → Transcription α (Coordinate α) → Prop}
    (h : ∀ t, Laid m verbose m.owners t → Ends (do
      for ref in m.liveRefs .pointVariable do
        let _ ← singleVariable m ref : Building α Unit) t ok fun _ => True) :
    Ends (vars m) (m.blank verbose) ok fun _ => True := by
  have hnodup := Model.nodup_owners hs
  have hstart : Laid m verbose [] (m.blank verbose) :=
    ⟨rfl, rfl, rfl, rfl, fun before ref after h => by simp at h, fun _ _ => rfl⟩
  unfold vars
  rw [ends_bind]
  -- the first loop lays out the finite variables
  refine (Ends.forIn (Laid m verbose) hstart ?_).mono ?_ fun _ h => h
  · intro gone ref rest t hsplit hlaid
    have hmem : ref ∈ m.liveRefs .finiteVariable := by rw [hsplit]; simp
    obtain ⟨v, hv⟩ := Model.mem_liveRefs_finiteVariable.1 hmem
    have howners : m.owners = gone ++ (ref :: rest ++
        (m.liveRefs .infiniteVariable ++ m.liveRefs .derivative)) := by
      rw [Model.owners, hsplit, List.append_assoc]
    rw [ends_bind]
    refine (hlaid.single (by simp [howners]) (fun href => ?_) hv).mono
      (fun _ t' h => (ends_pure _).2 ⟨rfl, h⟩) fun _ h => h
    rw [howners, List.nodup_append] at hnodup
    exact hnodup.2.2 ref href ref (by simp) rfl
  rintro _ t₁ h₁
  rw [ends_bind]
  -- the second one the infinite variables and derivatives, behind the finite variables
  refine (Ends.forIn (fun gone t => Laid m verbose (m.liveRefs .finiteVariable ++ gone) t)
    (by simpa using h₁) ?_).mono (fun _ t₂ h₂ => h t₂ h₂) fun _ h => h
  intro gone ref rest t hsplit hlaid
  have hmem : ref ∈ m.liveRefs .infiniteVariable ++ m.liveRefs .derivative := by
    rw [hsplit]
    simp
  obtain ⟨name, parameters, hi⟩ := Model.mem_liveRefs_indexed.1 hmem
  have howners : m.owners = (m.liveRefs .finiteVariable ++ gone) ++ ref :: rest := by
    rw [Model.owners, hsplit, List.append_assoc]
  have href : ref ∉ m.liveRefs .finiteVariable ++ gone := by
    intro href
    rw [howners, List.nodup_append] at hnodup
    exact hnodup.2.2 ref href ref (by simp) rfl
  rw [← List.append_assoc]
  exact hlaid.indexed hs hd (by simp [howners]) href hi

/-- The first pass lays out the variables. -/
theorem ends_vars [LawfulScalar α] (hs : m.Sound) (hd : m.Defined) (hg : m.OnGrid) :
    Ends (vars m) (m.blank verbose) (fun _ t => LaidOut m verbose t ∧ t.measures = [])
      fun _ => True := by
  refine ends_vars_of hs hd fun t₂ h₂ => ?_
  rw [ends_bind]
  refine (Ends.forIn (Pointed m verbose) (s := t₂) ?_ ?_).mono ?_ fun _ h => h
  · exact ⟨h₂.snapshot, h₂.naming, h₂.measures, h₂.finite, h₂.entries, nofun,
      fun ref href _ => h₂.others ref href⟩
  · intro gone ref rest t hsplit hpointed
    have hmem : ref ∈ m.liveRefs .pointVariable := by rw [hsplit]; simp
    obtain ⟨v, hv⟩ := Model.mem_liveRefs_pointVariable.1 hmem
    rw [ends_bind]
    refine (hpointed.step hs hg hv fun href => ?_).mono (fun _ t' h => (ends_pure _).2 ⟨rfl, h⟩)
      fun _ h => h
    have hnodup : (m.liveRefs .pointVariable).Nodup :=
      Model.nodup_liveRefs hs.pointVariables.nodup
    rw [hsplit, List.nodup_append] at hnodup
    -- a point variable comes up once
    exact hnodup.2.2 ref href ref (by simp) rfl
  · rintro _ t₃ h₃
    refine (ends_pure _).2 ⟨⟨h₃.snapshot, h₃.naming, h₃.finite, h₃.entries, fun ref v hv => ?_,
      fun ref href hpoint => h₃.others ref href fun hmem => ?_⟩, h₃.measures⟩
    · exact h₃.points ref (Model.mem_liveRefs_pointVariable.2 ⟨v, hv⟩) v hv
    · obtain ⟨v, hv⟩ := Model.mem_liveRefs_pointVariable.1 hmem
      exact hpoint v hv

end Building

end Discretization
