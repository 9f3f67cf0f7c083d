import Discretization.Proofs.Layouts

/-!
# Keys of a Transcription

An entry gains keys one by one, and never one that it has. So no two keys of an entry are the same,
and what the first pass puts in place for an infinite variable or derivative, the combinations of
the supports of its parameters, stays in front of whatever later passes add. None of this asks for
keys on the grid: it is how entries come about.

## Main definitions

* `Entry.Extends`: an entry has the rows of another one in front;
* `Entries.Fit`: entries have the parameters of their objects and no key twice;
* `Building.Develops`: what happens to the entries of a transcription;
* `Keyed`: the entries of a transcription that is complete.

## Main results

* `Building.admits_develops`: every change on the way to a transcription develops it;
* `keyed_of_transcribe`: the entries of every transcription.
-/

namespace Discretization

variable {α : Type} [Scalar α]

/-! ## Entries -/

namespace Entry

variable {κ β : Type} [BEq κ] {parameters : List Ref} {e e' e'' : Entry κ β}

/-- An entry has the parameters of another one and its rows in front, and no key twice if the other
one has none. -/
structure Extends (e e' : Entry κ β) : Prop where
  parameters : e'.parameters = e.parameters
  rows : e.rows <+: e'.rows
  distinct : e.Distinct → e'.Distinct

theorem Extends.refl (e : Entry κ β) : e.Extends e :=
  ⟨rfl, List.prefix_rfl, id⟩

theorem Extends.trans (h : e.Extends e') (h' : e'.Extends e'') : e.Extends e'' :=
  ⟨h'.parameters.trans h.parameters, h.rows.trans h'.rows, h'.distinct ∘ h.distinct⟩

/-- What is found in an entry is found in one that extends it. -/
theorem Extends.get? (h : e.Extends e') {key : List κ} {b : β} (hget : e.get? key = some b) :
    e'.get? key = some b := by
  obtain ⟨more, hrows⟩ := h.rows
  rw [Entry.get?, Option.map_eq_some_iff] at hget ⊢
  obtain ⟨row, hfind, rfl⟩ := hget
  exact ⟨row, by rw [← hrows, List.find?_append, hfind, Option.some_or], rfl⟩

/-- An entry that comes about from another one extends it. -/
theorem Grown.extends (h : e'.Grown parameters (some e)) : e.Extends e' := by
  cases h with
  | blank missing => cases missing
  | key counterpart new => exact ⟨rfl, List.prefix_append _ _, fun he => he.snoc new⟩

/-- Where all keys are different, keys are different after they were mapped if the map does not make
different keys the same. -/
theorem Distinct.mapKeys {ι : Type} [BEq ι] {f : κ → ι} (h : e.Distinct)
    (hf : ∀ key key' : List κ, (key == key') = false → (key.map f == key'.map f) = false) :
    (e.mapKeys f).Distinct :=
  List.pairwise_map.2 (h.imp fun hne => hf _ _ hne)

/-- What stands in a row is found at its key. -/
theorem get?_of_mem (h : e.Distinct) {row : List κ × β} (hrow : row ∈ e.rows)
    (hself : (row.1 == row.1) = true) : e.get? row.1 = some row.2 := by
  obtain ⟨before, after, hsplit⟩ := List.append_of_mem hrow
  unfold Distinct at h
  rw [hsplit, List.pairwise_append] at h
  have hbefore : before.find? (·.1 == row.1) = none := by
    rw [List.find?_eq_none]
    intro row' hrow'
    rw [h.2.2 row' hrow' row List.mem_cons_self]
    exact Bool.false_ne_true
  rw [get?, hsplit, List.find?_append, hbefore, Option.none_or, List.find?_cons, hself]
  rfl

end Entry

namespace Entries

variable {κ β : Type} [BEq κ] {P : Ref → List Ref → Prop} {entries : Entries κ β} {ref : Ref}
  {parameters : List Ref} {e : Entry κ β}

/-- The parameters of every entry are those of its object, and no key is there twice. -/
def Fit (P : Ref → List Ref → Prop) (entries : Entries κ β) : Prop :=
  ∀ ref e, entries.get? ref = some e → P ref e.parameters ∧ e.Distinct

theorem Fit.set (h : entries.Fit P) (he : P ref e.parameters ∧ e.Distinct) :
    (entries.set ref e).Fit P := by
  intro ref' e' he'
  rw [get?_set] at he'
  split at he'
  · rename_i href
    cases he'
    exact href ▸ he
  · exact h ref' e' he'

/-- An entry may start with the parameters of its object. -/
theorem Fit.start (h : entries.Fit P) (own : P ref parameters) :
    (entries.set ref { parameters }).Fit P :=
  h.set ⟨own, Entry.distinct_blank⟩

/-- An entry may come about as entries do. -/
theorem Fit.grown (h : entries.Fit P) (own : P ref parameters)
    (hgrown : e.Grown parameters (entries.get? ref)) : (entries.set ref e).Fit P := by
  refine h.set ?_
  cases hgrown with
  | blank missing => exact ⟨own, Entry.distinct_blank⟩
  | key counterpart new =>
    -- the entry grew from one that fits, or from a blank one if there was none
    have hold : P ref ((entries.get? ref).getD { parameters }).parameters ∧
        ((entries.get? ref).getD { parameters }).Distinct := by
      cases hget : entries.get? ref with
      | none => exact ⟨own, Entry.distinct_blank⟩
      | some e => exact h ref e hget
    exact ⟨hold.1, hold.2.snoc new⟩

theorem Fit.mapKeys {ι : Type} [BEq ι] {f : κ → ι} (h : entries.Fit P)
    (hf : ∀ key key' : List κ, (key == key') = false → (key.map f == key'.map f) = false) :
    (entries.mapKeys f).Fit P := by
  intro ref e he
  rw [get?_mapKeys, Option.map_eq_some_iff] at he
  obtain ⟨e, he, rfl⟩ := he
  exact ⟨(h ref e he).1, (h ref e he).2.mapKeys hf⟩

end Entries

/-! ## Transcriptions -/

/-- A reduced variable of a live variable has no key twice. -/
structure ReducedVariable.Fits {κ : Type} [BEq κ] (m : Model α) (r : ReducedVariable α κ) :
    Prop where
  live : ∃ found, m.indexed r.ref = .ok found
  distinct : r.entry.Distinct

namespace Building

open Transcription

variable {m : Model α} {t t' : Transcription α (Coordinate α)}

/-- What happens to the entries on the way to a transcription: those of infinite variables and
derivatives are extended, and all others keep fitting their objects. -/
structure Develops (m : Model α) (t t' : Transcription α (Coordinate α)) : Prop where
  vars : ∀ ref e, ref.kind.isInfiniteVariable = true → t.vars.get? ref = some e →
    ∃ e', t'.vars.get? ref = some e' ∧ e.Extends e'
  measures : t.measures.Fit (fun ref ps => m.functionParameters ref = .ok ps) →
    t'.measures.Fit fun ref ps => m.functionParameters ref = .ok ps
  constraints : t.constraints.Fit (fun ref ps => m.parametersOf ref = .ok ps) →
    t'.constraints.Fit fun ref ps => m.parametersOf ref = .ok ps
  evaluations :
    t.evaluations.Fit (fun ref ps => ∃ d, m.derivative ref = .ok d ∧ ps = d.parameters) →
    t'.evaluations.Fit fun ref ps => ∃ d, m.derivative ref = .ok d ∧ ps = d.parameters
  reduced : (∀ r ∈ t.reduced, r.Fits m) → ∀ r ∈ t'.reduced, r.Fits m

theorem Develops.of_vars
    (hvars : ∀ ref e, ref.kind.isInfiniteVariable = true → t.vars.get? ref = some e →
      ∃ e', t'.vars.get? ref = some e' ∧ e.Extends e')
    (hmeasures : t'.measures = t.measures) (hconstraints : t'.constraints = t.constraints)
    (hevaluations : t'.evaluations = t.evaluations) (hreduced : t'.reduced = t.reduced) :
    Develops m t t' :=
  ⟨hvars, fun h => hmeasures ▸ h, fun h => hconstraints ▸ h, fun h => hevaluations ▸ h,
    fun h => hreduced ▸ h⟩

instance : IsPreorder (Transcription α (Coordinate α)) (Develops m) where
  refl t := .of_vars (fun _ e _ he => ⟨e, he, .refl e⟩) rfl rfl rfl rfl
  trans t t' t'' h h' := by
    refine ⟨fun ref e hk he => ?_, h'.measures ∘ h.measures, h'.constraints ∘ h.constraints,
      h'.evaluations ∘ h.evaluations, h'.reduced ∘ h.reduced⟩
    obtain ⟨e', he', hext⟩ := h.vars ref e hk he
    obtain ⟨e'', he'', hext'⟩ := h'.vars ref e' hk he'
    exact ⟨e'', he'', hext.trans hext'⟩

theorem widens_develops (m : Model α) : Widens (Develops m) where
  entry t ref entry hgrown := by
    refine .of_vars (fun ref' e hk he => ?_) rfl rfl rfl rfl
    rw [Entries.get?_set]
    split
    · rename_i href
      subst href
      obtain ⟨parameters, hgrown⟩ := hgrown hk
      rw [he] at hgrown
      exact ⟨entry, rfl, hgrown.extends⟩
    · exact ⟨e, he, .refl e⟩
  append _ _ := .of_vars (fun _ e _ he => ⟨e, he, .refl e⟩) rfl rfl rfl rfl

/-- Nothing happens to the entries of variables. -/
theorem Develops.of_eq (hvars : t'.vars = t.vars)
    (hmeasures : t.measures.Fit (fun ref ps => m.functionParameters ref = .ok ps) →
      t'.measures.Fit fun ref ps => m.functionParameters ref = .ok ps)
    (hconstraints : t.constraints.Fit (fun ref ps => m.parametersOf ref = .ok ps) →
      t'.constraints.Fit fun ref ps => m.parametersOf ref = .ok ps)
    (hevaluations : t.evaluations.Fit
        (fun ref ps => ∃ d, m.derivative ref = .ok d ∧ ps = d.parameters) →
      t'.evaluations.Fit fun ref ps => ∃ d, m.derivative ref = .ok d ∧ ps = d.parameters)
    (hreduced : (∀ r ∈ t.reduced, r.Fits m) → ∀ r ∈ t'.reduced, r.Fits m) : Develops m t t' :=
  ⟨fun _ e _ he => ⟨e, hvars ▸ he, .refl e⟩, hmeasures, hconstraints, hevaluations, hreduced⟩

/-- The expression of a measure is remembered at a key that its entry does not have, and reduced
variables are recorded with keys that differ. -/
theorem moves_record {ref : Ref} {parameters : List Ref}
    (own : m.functionParameters ref = .ok parameters) (key : List (Coordinate α))
    (result : Expression α) (function : Ref) (measured : List Ref) (points : List (List α)) :
    Moves (Develops m) (do
      let entry ← measureEntry ref parameters
      let entry ← insert entry key result
      modify fun t => { t with measures := t.measures.set ref entry }
      reduce m function measured points
      return result) fun _ _ => True := by
  have hreduce := (widens_develops m).reduce (F := fun _ _ => True) m (fun t r found hi hr =>
    .of_eq rfl id id id fun h r' hr' => by
      rcases List.mem_append.1 hr' with hr' | hr'
      · exact h r' hr'
      · rw [List.mem_singleton.1 hr']
        exact ⟨⟨found, hi⟩, hr⟩) function measured points
  -- inserting fails at a key that is there already, so a recorded key is new to the entry
  have hrest : ∀ t e, t.measures.get? ref = some e → Ends (do
      let entry ← insert e key result
      modify fun t => { t with measures := t.measures.set ref entry }
      reduce m function measured points
      return result) t (fun _ t' => Develops m t t') fun _ => True := by
    intro t e he
    rw [ends_bind]
    refine ends_insert_new (fun hnew => ?_) trivial
    rw [ends_bind, ends_modify, ends_bind]
    refine (hreduce.ends _).mono (fun _ t' h' => (ends_pure _).2 (trans_of _ ?_ h')) fun _ h' => h'
    exact .of_eq rfl (fun h => h.set ⟨(h ref e he).1, (h ref e he).2.snoc hnew⟩) id id id
  refine ⟨fun t => ?_⟩
  rw [ends_bind]
  refine ends_measureEntry_of (hrest t) fun _ => ?_
  refine (hrest _ _ (Entries.get?_set_self _ _ _)).mono (fun _ t' h' => trans_of _ ?_ h')
    fun _ h' => h'
  exact .of_eq rfl (fun h => h.start own) id id id

/-- Every change on the way to a transcription develops it. -/
theorem admits_develops (m : Model α) : Admits m (Develops m) fun _ _ => True where
  toWidens := widens_develops m
  measureEntry _ _ _ own _ := .of_eq rfl (fun h => h.start own) id id id
  record _ _ own key result := moves_record own key result _ _ _
  constraintStart _ _ _ own := .of_eq rfl id (fun h => h.start own) id id
  constraintEntry _ _ _ _ own hgrown := .of_eq rfl id (fun h => h.grown own hgrown) id id
  evaluationStart _ _ d own := .of_eq rfl id id (fun h => h.start ⟨d, own, rfl⟩) id
  evaluationEntry _ _ d _ own hgrown := .of_eq rfl id id
    (fun h => h.grown (P := fun ref ps => ∃ d, m.derivative ref = .ok d ∧ ps = d.parameters)
      ⟨d, own, rfl⟩ hgrown) id
  constraint _ _ := .of_eq rfl id id id id

end Building

/-- The entries of a transcription with the given grids: the keys of an infinite variable or
derivative begin with the grid of its parameters, and all entries fit their objects. -/
structure Keyed {κ : Type} [BEq κ] (m : Model α) (grid : List Ref → List (List κ))
    (t : Transcription α κ) : Prop where
  vars : ∀ ref name parameters, m.indexed ref = .ok (name, parameters) → ∃ e : Entry κ Nat,
    t.vars.get? ref = some e ∧ e.parameters = parameters ∧ grid parameters <+: e.keys ∧ e.Distinct
  measures : t.measures.Fit fun ref ps => m.functionParameters ref = .ok ps
  constraints : t.constraints.Fit fun ref ps => m.parametersOf ref = .ok ps
  evaluations : t.evaluations.Fit fun ref ps => ∃ d, m.derivative ref = .ok d ∧ ps = d.parameters
  reduced : ∀ r ∈ t.reduced, r.Fits m

namespace Building

open Transcription

variable {m : Model α} {t t' : Transcription α (Coordinate α)}

/-- The keys of an infinite variable or derivative still begin with its grid. -/
theorem Develops.indexed (h : Develops m t t') {ref : Ref} {name : String} {parameters : List Ref}
    (hi : m.indexed ref = .ok (name, parameters)) {grid : List (List (Coordinate α))}
    (ht : ∃ e, t.vars.get? ref = some e ∧ e.parameters = parameters ∧ grid <+: e.keys ∧
      e.Distinct) :
    ∃ e, t'.vars.get? ref = some e ∧ e.parameters = parameters ∧ grid <+: e.keys ∧
      e.Distinct := by
  obtain ⟨e, he, rfl, hgrid, hdistinct⟩ := ht
  have hk : ref.kind.isInfiniteVariable = true := by
    rcases Model.kind_of_indexed hi with hk | hk <;> rw [hk] <;> rfl
  obtain ⟨e', he', hextends⟩ := h.vars ref e hk he
  exact ⟨e', he', hextends.parameters, hgrid.trans (hextends.rows.map _),
    hextends.distinct hdistinct⟩

theorem Develops.keyed (h : Develops m t t') (ht : Keyed m m.gridKeys t) :
    Keyed m m.gridKeys t' where
  vars ref name parameters hi := h.indexed hi (ht.vars ref name parameters hi)
  measures := h.measures ht.measures
  constraints := h.constraints ht.constraints
  evaluations := h.evaluations ht.evaluations
  reduced := h.reduced ht.reduced

/-- The variables that are laid out are keyed. -/
theorem Laid.keyed [LawfulScalar α] (hs : m.Sound) (hd : m.Defined) {verbose : Bool}
    (h : Laid m verbose m.owners t) {ref : Ref} {name : String} {parameters : List Ref}
    (hi : m.indexed ref = .ok (name, parameters)) :
    ∃ e, t.vars.get? ref = some e ∧ e.parameters = parameters ∧ m.gridKeys parameters <+: e.keys ∧
      e.Distinct := by
  obtain ⟨before, after, hsplit⟩ :=
    List.append_of_mem (Model.mem_owners.2 (.inr ⟨name, parameters, hi⟩))
  have hspanned := Model.spanned_of_indexed hi
  refine ⟨_, h.entries before ref after hsplit, hspanned, ?_, ?_⟩
  · have hkeys : (m.ownEntry ref (m.start before)).keys = m.gridKeys parameters := by
      rw [Entry.keys, Model.ownEntry, hspanned, List.zipIdx_map_fst]
    exact hkeys ▸ List.prefix_rfl
  · have hdistinct := Model.pairwise_gridKeys hs hd parameters
    rw [← List.zipIdx_map_fst (m.start before) (m.gridKeys parameters), List.pairwise_map]
      at hdistinct
    rw [Model.ownEntry, hspanned]
    exact hdistinct

/-- The first pass keys a transcription. -/
theorem ends_vars_keyed [LawfulScalar α] (hs : m.Sound) (hd : m.Defined) (verbose : Bool) :
    Ends (vars m) (m.blank verbose) (fun _ t => Keyed m m.gridKeys t) fun _ => True := by
  have hlaid : Ends (vars m) (m.blank verbose)
      (fun _ t' => ∃ t, Laid m verbose m.owners t ∧ Develops m t t') fun _ => True := by
    refine ends_vars_of hs hd fun t ht => ?_
    have hpoints : Moves (Develops m) (do
        for ref in m.liveRefs .pointVariable do
          let _ ← singleVariable m ref : Building α Unit) fun _ _ => True :=
      Moves.bind (.forIn (fun ref _ => (admits_develops m).singleTurn m ref) _) fun _ => .pure _
    exact (hpoints.ends t).mono (fun _ t' hdevelops => ⟨t, ht, hdevelops⟩) fun _ h => h
  have hvars : Moves (Develops m) (vars m) fun _ _ => True := (admits_develops m).vars m
  refine (hlaid.and (hvars.ends _)).mono ?_ fun _ _ => trivial
  rintro _ t' ⟨⟨t, ht, hdevelops⟩, hall⟩
  refine ⟨fun ref name parameters hi => ?_, hall.measures nofun, hall.constraints nofun,
    hall.evaluations nofun, hall.reduced nofun⟩
  exact hdevelops.indexed hi (ht.keyed hs hd hi)

/-- A transcription in the making is keyed once the variables are laid out. -/
theorem ends_run_keyed [LawfulScalar α] (hs : m.Sound) (hd : m.Defined) (verbose : Bool) :
    Ends (run m) (m.blank verbose) (fun _ t => Keyed m m.gridKeys t) fun _ => True := by
  have hadmits := admits_develops m
  -- the grids are there after the first pass, and the others only develop what they find
  have hrest := hadmits.measures.bind fun _ => hadmits.constraints.bind fun _ =>
    hadmits.evaluations
  unfold run
  rw [ends_bind]
  refine (ends_vars_keyed hs hd verbose).mono (fun _ t ht => ?_) fun _ h => h
  exact (hrest.ends t).mono (fun _ _ hdevelops => hdevelops.keyed ht) fun _ h => h

end Building

/-! ## Numbers -/

/-- Keys that differ have different numbers. -/
theorem Coordinate.map_value_ne : ∀ key key' : List (Coordinate α), (key == key') = false →
    (key.map (·.value) == key'.map (·.value)) = false
  | [], [], h => h
  | [], _ :: _, _ => rfl
  | _ :: _, [], _ => rfl
  | c :: key, c' :: key', h => by
    rw [List.cons_beq_cons, Bool.and_eq_false_iff] at h
    rw [List.map_cons, List.map_cons, List.cons_beq_cons, Bool.and_eq_false_iff]
    refine h.imp (fun hc => ?_) (map_value_ne key key')
    exact (Bool.or_eq_false_iff.1 hc).1

/-- The entries of a transcription are keyed by numbers once it is complete. -/
theorem Keyed.mapKeys {m : Model α} {t : Transcription α (Coordinate α)}
    (h : Keyed m m.gridKeys t) : Keyed m m.grid (t.mapKeys (·.value)) where
  vars ref name parameters hi := by
    obtain ⟨e, he, hparameters, hgrid, hdistinct⟩ := h.vars ref name parameters hi
    refine ⟨e.mapKeys (·.value), ?_, hparameters, ?_, hdistinct.mapKeys Coordinate.map_value_ne⟩
    · exact Entries.get?_mapKeys_of_some _ he
    · rw [Entry.keys_mapKeys, ← Model.map_value_gridKeys]
      exact hgrid.map _
  measures := h.measures.mapKeys Coordinate.map_value_ne
  constraints := h.constraints.mapKeys Coordinate.map_value_ne
  evaluations := h.evaluations.mapKeys Coordinate.map_value_ne
  reduced := List.forall_mem_map.2 fun r hr =>
    ⟨(h.reduced r hr).live, (h.reduced r hr).distinct.mapKeys Coordinate.map_value_ne⟩

/-- The entries of every transcription. -/
theorem keyed_of_transcribe [LawfulScalar α] {m : Model α} {verbose : Bool} {t : Transcription α}
    (hs : m.Sound) (hd : m.Defined) (h : m.transcribe verbose = .ok t) : Keyed m m.grid t := by
  obtain ⟨t', hrun, rfl⟩ := Model.transcribe_eq_ok.1 h
  exact ((Building.ends_run_keyed hs hd verbose).of_ok hrun).mapKeys

end Discretization
