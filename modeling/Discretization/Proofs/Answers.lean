import Discretization.Proofs.Keys
import Discretization.Proofs.Readiness
import Discretization.Proofs.Reductions
import Discretization.Proofs.Selections

/-!
# Answers of a Transcription

After a build, queries answer for every infinite variable, derivative, measure, constraint and
reduced variable. An object has one row for each of its keys, and whatever the label, the
counterparts and the supports that queries give are those of the same rows: the rows whose key has a
covered label at every value. Looking up a support gives the counterpart of its row. The supports of
an infinite variable or derivative are those that the store selects for its parameters, although the
store looks at one parameter after the other and a transcription at whole keys.

## Main definitions

* `Model.Spans`, `Transcription.OnGrid`: keys that consist of supports of the model;
* `Query.Finds`: what a query has an answer for;
* `Model.Answers`: queries answer with rows.

## Main results

* `Entry.positions_eq`: the positions of the matching keys;
* `Entry.Remembers.supportTuples`: remembered answers are right, and stay so;
* `answers_of_resolve`: the answers for an object whose entry is found;
* `answers_of_build`: the answers after every build.
-/

namespace Discretization

deriving instance DecidableEq for SupportList

/-! ## Positions -/

/-- Checks that all succeed filter as their results do. -/
theorem Except.filterM_eq_ok {ε β : Type} {f : β → Except ε Bool} {g : β → Bool} {xs : List β}
    (h : ∀ x ∈ xs, f x = .ok (g x)) : xs.filterM f = .ok (xs.filter g) := by
  have go : ∀ kept : List β, xs.filterAuxM f kept = .ok ((xs.filter g).reverse ++ kept) := by
    induction xs with
    | nil => exact fun _ => rfl
    | cons x rest ih =>
      intro kept
      rw [List.filterAuxM, h x List.mem_cons_self]
      change rest.filterAuxM f (bif g x then x :: kept else kept) = _
      rw [ih fun y hy => h y (List.mem_cons_of_mem x hy), List.filter_cons]
      cases g x <;> simp
  rw [List.filterM, go []]
  simp [bind, Except.bind, pure, Except.pure]

/-- What is read at the positions that satisfy a condition is what the items there give. -/
theorem filterMap_filter_range {β γ : Type} {xs : List β} {P : β → Bool} {Q : Nat → Bool}
    {f : β → γ} {g : Nat → Option γ} (hQ : ∀ i x, xs[i]? = some x → Q i = P x)
    (hg : ∀ i x, xs[i]? = some x → g i = some (f x)) :
    ((List.range xs.length).filter Q).filterMap g = (xs.filter P).map f := by
  -- positions count from the front, so items are added at the end
  induction xs using List.reverseRecOn with
  | nil => rfl
  | append_singleton xs x ih =>
    have hbefore : ∀ i y, xs[i]? = some y → (xs ++ [x])[i]? = some y := fun i y hy => by
      rw [List.getElem?_append_left (List.getElem?_eq_some_iff.1 hy).1, hy]
    have hlast : (xs ++ [x])[xs.length]? = some x := List.getElem?_concat_length
    have ih := ih (fun i y hy => hQ i y (hbefore i y hy)) fun i y hy => hg i y (hbefore i y hy)
    rw [List.length_append, List.length_singleton, List.range_succ, List.filter_append,
      List.filterMap_append, ih, List.filter_append, List.map_append]
    cases hx : P x <;> simp [hQ _ x hlast, hg _ x hlast, hx]

variable {α : Type}

namespace Model

variable {m : Model α} {label : Label} {p : Ref} {q : Parameter α} {parameters : List Ref}
  {key : List α}

/-! ## Keys of supports -/

/-- The labels that count for a parameter are those of its supports: no parameter is listed
twice. -/
theorem labelled?_snapshot [Scalar α] (hs : m.Sound) (hq : m.parameter (.given p) = .ok q) :
    m.snapshot.labelled? p = some q.supports.supports := by
  have hnodup : (m.snapshot.map (·.1)).Nodup := by
    change m.snapshot.parameters.Nodup
    rw [parameters_snapshot]
    exact nodup_liveRefs hs.parameters.nodup
  have hfirst := supports?_snapshot hq
  rw [Snapshot.supports?, Option.map_eq_some_iff] at hfirst
  obtain ⟨row, hrow, hsupports⟩ := hfirst
  have hp : row.1 = p := by simpa using List.find?_some hrow
  have hmem := List.mem_of_find?_eq_some hrow
  rw [Snapshot.labelled?, Snapshot.supports?, Option.map_eq_some_iff]
  -- labels are searched from the end, values from the start
  cases hlast : m.snapshot.reverse.find? (·.1 = p) with
  | none =>
    rw [List.find?_eq_none] at hlast
    exact absurd (decide_eq_true hp) (hlast row (List.mem_reverse.2 hmem))
  | some row' =>
    have hp' : row'.1 = p := by simpa using List.find?_some hlast
    have hmem' := List.mem_reverse.1 (List.mem_of_find?_eq_some hlast)
    -- no parameter is listed twice, so both searches end at the same row
    obtain rfl := List.inj_on_of_nodup_map hnodup hmem' hmem (hp'.trans hp.symm)
    exact ⟨row', rfl, hsupports⟩

/-- Only live parameters have supports. -/
theorem exists_parameter_of_mem_axis {x : α} (h : x ∈ m.axis p) :
    ∃ q, m.parameter (.given p) = .ok q ∧ x ∈ q.supports.values := by
  rw [axis] at h
  split at h
  · exact ⟨_, ‹_›, h⟩
  · cases h

variable [Scalar α]

/-- The key has a support for each parameter, or a number equal to one. -/
def Spans (m : Model α) (parameters : List Ref) (key : List α) : Prop :=
  List.Forall₂ (fun p x => ∃ y ∈ m.axis p, (y == x) = true) parameters key

instance (m : Model α) (parameters : List Ref) (key : List α) :
    Decidable (m.Spans parameters key) :=
  inferInstanceAs (Decidable (List.Forall₂ _ parameters key))

theorem Spans.beq_self [LawfulScalar α] (h : m.Spans parameters key) : (key == key) = true := by
  induction h with
  | nil => rfl
  | cons hx _ ih =>
    obtain ⟨y, -, hyx⟩ := hx
    rw [List.cons_beq_cons, ih, Bool.and_true]
    exact LawfulScalar.beq_trans (LawfulScalar.beq_symm hyx) hyx

/-- A key of supports is one of the keys of the grid. -/
theorem Spans.exists_mem_grid (h : m.Spans parameters key) :
    ∃ k ∈ m.grid parameters, (k == key) = true := by
  induction h with
  | nil => exact ⟨[], by simp [grid, combinations], rfl⟩
  | @cons p x parameters key hx _ ih =>
    obtain ⟨y, hy, hyx⟩ := hx
    obtain ⟨k, hk, hkey⟩ := ih
    refine ⟨y :: k, mem_combinations.2 (.cons hy (mem_combinations.1 hk)), ?_⟩
    rw [List.cons_beq_cons, hyx, hkey, Bool.and_true]

/-- A key of supports matches if all of its values carry a covered label. -/
theorem Spans.keyMatches [LawfulScalar α] (h : m.Spans parameters key) (hs : m.Sound)
    (hm : m.Selectable) (label : Label) :
    Entry.keyMatches m.snapshot label parameters key = .ok (m.carriesAll label parameters key) := by
  induction h with
  | nil => rfl
  | @cons p x parameters key hx _ ih =>
    obtain ⟨y, hy, -⟩ := hx
    obtain ⟨q, hq, -⟩ := exists_parameter_of_mem_axis hy
    -- the entry asks the snapshot for the labels, and the model has the same ones
    have hmatches : m.snapshot.matchesAt p x label = .ok (m.carries label p x) := by
      rw [Snapshot.matchesAt, labelled?_snapshot hs hq, carries_eq hq,
        ← SupportMap.coversAny_labelsAt (hm p q hq).ordered]
      rfl
    rw [Entry.keyMatches, hmatches, carriesAll_cons]
    cases m.carries label p x with
    | true => exact ih
    | false => rfl

/-- The selector of every support selects every key of supports. -/
theorem Spans.carriesAll_all (h : m.Spans parameters key) (hm : m.Selectable) :
    m.carriesAll .all parameters key = true := by
  induction h with
  | nil => rfl
  | @cons p x parameters key hx _ ih =>
    obtain ⟨y, hy, hyx⟩ := hx
    obtain ⟨q, hq, hy⟩ := exists_parameter_of_mem_axis hy
    have hcontains : q.supports.contains x = true := SupportMap.contains_iff.2 ⟨y, hy, hyx⟩
    rw [carriesAll_cons, ih, Bool.and_true, carries_eq hq]
    exact (hm p q hq).carries_all hcontains

/-- The rows whose key carries a covered label at every value, in order. -/
def selectRows {β : Type} (m : Model α) (label : Label) (parameters : List Ref)
    (rows : List (List α × β)) : List (List α × β) :=
  rows.filter fun row => m.carriesAll label parameters row.1

theorem map_fst_selectRows {β : Type} (rows : List (List α × β)) :
    (m.selectRows label parameters rows).map (·.1) =
      (rows.map (·.1)).filter (m.carriesAll label parameters) := by
  rw [selectRows, List.filter_map]
  rfl

end Model

/-- The supports of an object at the given keys: plain values if it has one parameter. -/
def SupportList.ofKeys [Zero α] (parameters : List Ref) (keys : List (List α)) : SupportList α :=
  if parameters.length = 1 then .points (keys.map (·.headD 0)) else .tuples keys

variable [Scalar α]

/-! ## Entries -/

namespace Entry

variable {m : Model α} {β : Type} {e e' : Entry α β} {label : Label}

/-- Every key consists of supports of the model. -/
def OnGrid (m : Model α) (e : Entry α β) : Prop :=
  ∀ key ∈ e.keys, m.Spans e.parameters key

instance (m : Model α) (e : Entry α β) : Decidable (e.OnGrid m) :=
  inferInstanceAs (Decidable (∀ key ∈ e.keys, m.Spans e.parameters key))

omit [Scalar α] in
theorem getD_keys {i : Nat} {row : List α × β} (h : e.rows[i]? = some row) :
    e.keys.getD i [] = row.1 := by
  simp [keys, h]

theorem OnGrid.spans (h : e.OnGrid m) {row : List α × β} (hrow : row ∈ e.rows) :
    m.Spans e.parameters row.1 :=
  h row.1 (List.mem_map_of_mem hrow)

/-- The positions of the keys that carry a covered label at every value, also where a query does not
look at labels. -/
theorem positions_eq [LawfulScalar α] (h : e.OnGrid m) (hs : m.Sound) (hm : m.Selectable)
    (label : Label) : e.positions m.snapshot label = .ok ((List.range e.size).filter fun i =>
      m.carriesAll label e.parameters (e.keys.getD i [])) := by
  have hspans : ∀ i ∈ List.range e.size, m.Spans e.parameters (e.keys.getD i []) := by
    intro i hi
    have hrow := List.getElem?_eq_getElem (List.mem_range.1 hi)
    rw [getD_keys hrow]
    exact h.spans (List.mem_of_getElem? hrow)
  rw [positions]
  split
  · rename_i htakes
    rw [List.filter_eq_self.2 fun i hi => ?_]
    · rfl
    · rcases Bool.or_eq_true_iff.1 htakes with hall | hfinite
      · rw [of_decide_eq_true hall]
        exact (hspans i hi).carriesAll_all hm
      · rw [List.isEmpty_iff.1 hfinite]
        rfl
  · -- the labels of the snapshot are looked up, which succeeds for values on the grid
    exact Except.filterM_eq_ok fun i hi => (hspans i hi).keyMatches hs hm label

/-- The keys that a label selects. -/
theorem matchingSupports_eq [LawfulScalar α] (h : e.OnGrid m) (hs : m.Sound) (hm : m.Selectable)
    (label : Label) : e.matchingSupports m.snapshot label =
      .ok (.ofKeys e.parameters ((m.selectRows label e.parameters e.rows).map (·.1))) := by
  have hkeys : (((List.range e.size).filter fun i =>
      m.carriesAll label e.parameters (e.keys.getD i [])).map fun i => e.keys.getD i []) =
        (m.selectRows label e.parameters e.rows).map (·.1) := by
    rw [← List.filterMap_eq_map]
    exact filterMap_filter_range (fun i row hrow => by rw [getD_keys hrow])
      fun i row hrow => congrArg some (getD_keys hrow)
  rw [matchingSupports, positions_eq h hs hm]
  change (if e.parameters.length = 1 then _ else _) = _
  rw [hkeys, SupportList.ofKeys]
  split
  · rename_i hone
    -- over one parameter a key is one value, and that is unpacked
    refine Except.bind_eq_ok.2 ⟨_, Except.mapM_eq_ok.2 ?_, rfl⟩
    rw [List.forall₂_map_right_iff, List.forall₂_same]
    intro key hkey
    obtain ⟨row, hrow, rfl⟩ := List.mem_map.1 hkey
    have hlength := (h.spans (List.mem_filter.1 hrow).1).length_eq
    obtain ⟨x, hx⟩ := List.length_eq_one_iff.1 (hlength.symm.trans hone)
    rw [hx]
    rfl
  · rfl

/-- What is remembered is what an answer without memory would be. -/
def Remembers (snapshot : Snapshot α) (e : Entry α β) : Prop :=
  ∀ row ∈ e.memo, e.matchingSupports snapshot row.1 = .ok row.2

/-- Where nothing is remembered, nothing wrong is. -/
theorem remembers_of_unasked (h : e.memo = []) (snapshot : Snapshot α) : e.Remembers snapshot := by
  intro row hrow
  rw [h] at hrow
  cases hrow

/-- Remembered answers are right, and asking keeps them right. -/
theorem Remembers.supportTuples {snapshot : Snapshot α} (h : e.Remembers snapshot)
    {answer : SupportList α} (hanswer : e.matchingSupports snapshot label = .ok answer) :
    ∃ e' : Entry α β, e.supportTuples snapshot label = .ok (answer, e') ∧
      e'.parameters = e.parameters ∧ e'.rows = e.rows ∧ e'.Remembers snapshot := by
  rw [Entry.supportTuples]
  cases hfind : e.memo.find? (·.1 = label) with
  | some row =>
    have hlabel : row.1 = label := by simpa using List.find?_some hfind
    have hright := h row (List.mem_of_find?_eq_some hfind)
    rw [hlabel] at hright
    obtain rfl := Except.ok.inj (hanswer.symm.trans hright)
    exact ⟨e, rfl, rfl, rfl, h⟩
  | none =>
    rw [hanswer]
    refine ⟨_, rfl, rfl, rfl, fun row hrow => ?_⟩
    rcases List.mem_append.1 hrow with hrow | hrow
    · exact h row hrow
    · rw [List.mem_singleton.1 hrow]
      exact hanswer

/-- An entry from which queries can be answered: its keys are on the grid and differ, and no query
has been answered from it yet. -/
structure Answerable (m : Model α) (e : Entry α β) : Prop where
  onGrid : e.OnGrid m
  distinct : e.Distinct
  unasked : e.memo = []

omit [Scalar α] in
theorem keys_map {γ : Type} (f : β → γ) (e : Entry α β) : (e.map f).keys = e.keys := by
  simp [map, keys]

theorem Answerable.map (h : e.Answerable m) {γ : Type} (f : β → γ) : (e.map f).Answerable m where
  onGrid key hkey := h.onGrid key (keys_map f e ▸ hkey)
  distinct := List.pairwise_map.2 h.distinct
  unasked := h.unasked

theorem Answerable.remembers (h : e.Answerable m) (snapshot : Snapshot α) :
    e.Remembers snapshot :=
  remembers_of_unasked h.unasked snapshot

end Entry

namespace Entries

variable {κ β γ : Type} {entries : Entries κ β} {ref : Ref} {e : Entry κ β}

theorem mem_of_get? (h : entries.get? ref = some e) : ∃ row ∈ entries, row.2 = e := by
  rw [get?, Option.map_eq_some_iff] at h
  obtain ⟨row, hrow, he⟩ := h
  exact ⟨row, List.mem_of_find?_eq_some hrow, he⟩

theorem get?_map (f : β → γ) (h : entries.get? ref = some e) :
    get? (entries.map fun (ref, e) => (ref, e.map f)) ref = some (e.map f) := by
  rw [get?, Option.map_eq_some_iff] at h
  obtain ⟨row, hrow, rfl⟩ := h
  rw [get?, List.find?_map]
  change (Option.map _ (entries.find? (·.1 = ref))).map _ = _
  rw [hrow]
  rfl

end Entries

/-! ## Queries -/

namespace Transcription

variable {m : Model α} {t : Transcription α}

/-- Something holds of all entries. -/
structure Every (P : {β : Type} → Entry α β → Prop) (t : Transcription α) : Prop where
  vars : ∀ row ∈ t.vars, P row.2
  measures : ∀ row ∈ t.measures, P row.2
  constraints : ∀ row ∈ t.constraints, P row.2
  evaluations : ∀ row ∈ t.evaluations, P row.2
  reduced : ∀ r ∈ t.reduced, P r.entry

/-- Every key consists of supports of the model. -/
def OnGrid (m : Model α) (t : Transcription α) : Prop :=
  t.Every fun e => e.OnGrid m

end Transcription

/-- The kinds of objects with parameters that a query answers for by their own entries. -/
def Query.kinds : Query → List EntityKind
  | vars => [.infiniteVariable, .derivative]
  | measures => [.measure]
  | constraints => [.constraint, .derivative]

theorem Query.handler_vars {kind : EntityKind} (h : kind ∈ vars.kinds) :
    HandlerRegistry.builtin.get? .vars kind = some (.ofGroup .vars) := by
  rcases List.mem_pair.1 h with rfl | rfl <;> rfl

/-- A query has an answer for live objects of its kinds, and the one for variables has an answer for
reduced variables. -/
inductive Query.Finds (m : Model α) (t : Transcription α) : Query → Ref → Prop where
  | object {query : Query} {ref : Ref} (kind : ref.kind ∈ query.kinds)
      (live : ref ∈ m.liveRefs ref.kind) : Finds m t query ref
  | reduced {i : Nat} (recorded : i < t.reduced.length) : Finds m t .vars (m.ref .reducedVariable i)

namespace Model

variable {m : Model α} {t : Transcription α} {query : Query} {ref : Ref}

/-- The parameters that an object is indexed by; a reduced variable is indexed by those that are
left. -/
def indexedBy (m : Model α) (ref : Ref) : Except (Error α) (List Ref) := do
  if ref.kind = .reducedVariable then return (← m.reducedVariable ref).parameters
  else m.parametersOf ref

/-- Queries for an object answer with rows of a key and a counterpart, in order: with all of them
when every support is asked for, and else with those that the label selects. Each support that is
looked up gives its counterpart; the look-up reads the evaluation equations of no derivative. -/
structure Answers (m : Model α) (query : Query) (ref : Ref) (parameters : List Ref)
    (rows : List (List α × Counterpart α)) : Prop where
  keys : ∀ row ∈ rows, row.1.length = parameters.length
  allCounterparts : m.counterparts .builtin query ref .all = .ok (.many (rows.map (·.2)))
  allSupports : m.counterpartSupports .builtin query ref .all =
    .ok (.ofKeys parameters (rows.map (·.1)))
  counterparts : ∀ label, m.counterparts .builtin query ref label =
    .ok (.many ((m.selectRows label parameters rows).map (·.2)))
  supports : ∀ label, m.counterpartSupports .builtin query ref label =
    .ok (.ofKeys parameters ((m.selectRows label parameters rows).map (·.1)))
  lookup : query = .ofKind ref.kind → ∀ row ∈ rows, ∀ key : Tensor α, key.entries = row.1 →
    key.shape.length ≤ 1 → m.lookup .builtin ref key = .ok row.2

/-- Looking up a support gives what the entry of the object has there. -/
theorem lookup_of_resolve {e : Entry α (Counterpart α)} {c : Counterpart α} {key : Tensor α}
    (hresolve : m.resolve .builtin (.ofKind ref.kind) ref = .ok (t, e))
    (hshape : key.shape.length ≤ 1) (hget : e.get? key.entries = some c) :
    m.lookup .builtin ref key = .ok c := by
  refine Except.bind_eq_ok.2 ⟨(t, e), hresolve, ?_⟩
  dsimp only
  rw [if_neg (by omega), hget]
  rfl

/-- Where the entry of an object is found, queries answer with its rows. -/
theorem answers_of_resolve [LawfulScalar α] (hs : m.Sound) (hm : m.Selectable)
    (ht : t.snapshot = m.snapshot) {e : Entry α (Counterpart α)}
    (hresolve : m.resolve .builtin query ref = .ok (t, e)) (hne : e.parameters ≠ [])
    (he : e.Answerable m) : m.Answers query ref e.parameters e.rows := by
  -- with parameters, the answers are lists and not single counterparts
  have hinfinite : e.isFinite = false := by
    rw [Entry.isFinite, List.isEmpty_eq_false_iff]
    exact hne
  have hall : m.selectRows .all e.parameters e.rows = e.rows :=
    List.filter_eq_self.2 fun row hrow => (he.onGrid.spans hrow).carriesAll_all hm
  -- the positions of the matching keys pick the counterparts of the same rows
  have hcounterparts : ∀ label, m.counterparts .builtin query ref label =
      .ok (.many ((m.selectRows label e.parameters e.rows).map (·.2))) := by
    intro label
    refine Except.bind_eq_ok.2 ⟨(t, e), hresolve, ?_⟩
    dsimp only
    rw [if_neg (by rw [hinfinite]; exact Bool.false_ne_true), ht,
      Entry.positions_eq he.onGrid hs hm]
    refine congrArg (fun cs => Except.ok (Counterparts.many cs)) ?_
    exact filterMap_filter_range (fun i row hrow => by rw [Entry.getD_keys hrow])
      fun i row hrow => by rw [hrow]; rfl
  have hsupports : ∀ label, m.counterpartSupports .builtin query ref label =
      .ok (.ofKeys e.parameters ((m.selectRows label e.parameters e.rows).map (·.1))) := by
    intro label
    obtain ⟨e', he', -⟩ := (he.remembers m.snapshot).supportTuples
      (Entry.matchingSupports_eq he.onGrid hs hm label)
    refine Except.bind_eq_ok.2 ⟨(t, e), hresolve, ?_⟩
    dsimp only
    rw [if_neg (by rw [hinfinite]; exact Bool.false_ne_true), ht, he']
    rfl
  refine ⟨fun row hrow => (he.onGrid.spans hrow).length_eq.symm, ?_, ?_, hcounterparts, hsupports,
    ?_⟩
  · rw [hcounterparts, hall]
  · rw [hsupports, hall]
  · rintro rfl row hrow key hkey hshape
    refine lookup_of_resolve hresolve hshape ?_
    rw [hkey]
    exact Entry.get?_of_mem he.distinct hrow (he.onGrid.spans hrow).beq_self

/-- The entry of an object in a group is found. -/
theorem resolve_of_group {group : EntryGroup} {e : Entry α (Counterpart α)}
    (ht : m.transcription = some t)
    (hhandler : HandlerRegistry.builtin.get? query ref.kind = some (.ofGroup group))
    (he : (t.entries group).get? ref = some e) : m.resolve .builtin query ref = .ok (t, e) := by
  rw [resolve, hhandler, transcribed, ht]
  refine Except.bind_eq_ok.2 ⟨t, rfl, ?_⟩
  dsimp only
  rw [he]
  rfl

omit [Scalar α] in
/-- A reduced variable of a live variable is found. -/
theorem reducedVariable_of_recorded {i : Nat} (ht : m.transcription = some t)
    (hi : i < t.reduced.length) (hlive : m.isValid (.given t.reduced[i].ref) = true) :
    m.reducedVariable (m.ref .reducedVariable i) = .ok t.reduced[i] := by
  refine Except.bind_eq_ok.2 ⟨t, by rw [transcribed, ht]; rfl, ?_⟩
  have hnamed : ¬ ((m.ref .reducedVariable i).kind ≠ .reducedVariable ∨
      (m.ref .reducedVariable i).index < 0) := by simp [Model.ref]
  have hindex : (m.ref .reducedVariable i).index.toNat = i := by simp [Model.ref]
  rw [if_neg hnamed, hindex, List.getElem?_eq_getElem hi]
  simp only [hlive]
  rfl

/-- The entry of a reduced variable is found. -/
theorem resolve_of_recorded {i : Nat} (ht : m.transcription = some t) (hi : i < t.reduced.length)
    (hlive : m.isValid (.given t.reduced[i].ref) = true) :
    m.resolve .builtin .vars (m.ref .reducedVariable i) =
      .ok (t, t.reduced[i].entry.map .index) := by
  refine Except.bind_eq_ok.2 ⟨t, by rw [transcribed, ht]; rfl, ?_⟩
  exact Except.bind_eq_ok.2 ⟨_, reducedVariable_of_recorded ht hi hlive, rfl⟩

omit [Scalar α] in
/-- Live objects that the query for variables answers for by their own entries are found with their
parameters. -/
theorem exists_indexed (kind : ref.kind ∈ Query.vars.kinds) (live : ref ∈ m.liveRefs ref.kind) :
    ∃ name parameters, m.indexed ref = .ok (name, parameters) := by
  refine mem_liveRefs_indexed.1 ?_
  rcases List.mem_pair.1 kind with hk | hk <;> rw [hk] at live
  · exact List.mem_append_left _ live
  · exact List.mem_append_right _ live

omit [Scalar α] in
theorem isValid_of_indexed {found : String × List Ref} (hi : m.indexed ref = .ok found) :
    m.isValid (.given ref) = true := by
  have hlive := mem_liveRefs_indexed.2 ⟨found.1, found.2, hi⟩
  rw [List.mem_append, mem_liveRefs, mem_liveRefs] at hlive
  rw [isValid]
  rcases hlive with ⟨hid, -, hsome⟩ | ⟨hid, -, hsome⟩ <;> rw [hsome, decide_eq_true hid] <;> rfl

omit [Scalar α] in
theorem indexedBy_of_ne (h : ref.kind ≠ .reducedVariable) :
    m.indexedBy ref = m.parametersOf ref := by
  rw [indexedBy, if_neg h]

omit [Scalar α] in
/-- The parameters that an infinite variable or derivative is indexed by. -/
theorem indexedBy_of_indexed {name : String} {parameters : List Ref}
    (hi : m.indexed ref = .ok (name, parameters)) : m.indexedBy ref = .ok parameters := by
  have hk : ref.kind ≠ .reducedVariable ∧ ref.kind ≠ .constraint := by
    rcases kind_of_indexed hi with hk | hk <;> rw [hk] <;> decide
  rw [indexedBy_of_ne hk.1, parametersOf_of_ne hk.2]
  exact functionParameters_eq_ok.2 (.inr (.inr (.inr ⟨name, hi⟩)))

end Model

/-! ## Transcriptions -/

/-- A transcription that belongs to a model: its entries are those of the objects of the model, with
keys of supports, and no query has been answered from it yet. -/
structure Transcribed (m : Model α) (t : Transcription α) : Prop where
  attached : m.transcription = some t
  snapshot : t.snapshot = m.snapshot
  complete : Building.Complete m t
  keyed : Keyed m m.grid t
  onGrid : t.OnGrid m
  unasked : t.Every fun e => e.memo = []

namespace Transcribed

variable {m : Model α} {t : Transcription α} {query : Query} {ref : Ref}

/-- The entry of an infinite variable or derivative has the keys of its grid and no others. -/
theorem exists_vars (h : Transcribed m t) {name : String} {parameters : List Ref}
    (hi : m.indexed ref = .ok (name, parameters)) :
    ∃ e : Entry α Nat, t.vars.get? ref = some e ∧ e.parameters = parameters ∧
      e.keys = m.grid parameters ∧ e.Answerable m := by
  obtain ⟨e, he, rfl, ⟨rest, hgrid⟩, hdistinct⟩ := h.keyed.vars ref name parameters hi
  obtain ⟨row, hrow, rfl⟩ := Entries.mem_of_get? he
  have hanswerable : row.2.Answerable m :=
    ⟨h.onGrid.vars row hrow, hdistinct, h.unasked.vars row hrow⟩
  refine ⟨row.2, he, rfl, ?_, hanswerable⟩
  cases rest with
  | nil => rw [← hgrid, List.append_nil]
  | cons key rest =>
    -- a key behind the grid would be there a second time
    obtain ⟨k, hk, hkey⟩ := (hanswerable.onGrid key (by rw [← hgrid]; simp)).exists_mem_grid
    have hkeys : row.2.keys.Pairwise fun k k' => (k == k') = false := List.pairwise_map.2 hdistinct
    rw [← hgrid, List.pairwise_append] at hkeys
    rw [hkeys.2.2 k hk key List.mem_cons_self] at hkey
    cases hkey

/-- An entry of a group is one from which queries can be answered. -/
theorem exists_of_group (h : Transcribed m t) {group : EntryGroup} {β : Type}
    {f : β → Counterpart α} {entries : Entries α β} {e : Entry α β}
    (hgroup : t.entries group = entries.map fun (ref, e) => (ref, e.map f))
    (hhandler : HandlerRegistry.builtin.get? query ref.kind = some (.ofGroup group))
    (hgrid : ∀ row ∈ entries, row.2.OnGrid m) (hunasked : ∀ row ∈ entries, row.2.memo = [])
    (he : entries.get? ref = some e) (own : m.indexedBy ref = .ok e.parameters)
    (hdistinct : e.Distinct) :
    ∃ e, m.resolve .builtin query ref = .ok (t, e) ∧ m.indexedBy ref = .ok e.parameters ∧
      e.Answerable m := by
  obtain ⟨row, hrow, rfl⟩ := Entries.mem_of_get? he
  have hanswerable : row.2.Answerable m := ⟨hgrid row hrow, hdistinct, hunasked row hrow⟩
  refine ⟨row.2.map f, Model.resolve_of_group h.attached hhandler ?_, own, hanswerable.map f⟩
  rw [hgroup]
  exact Entries.get?_map f he

/-- Whatever a query finds has an entry from which it can be answered. -/
theorem exists_entry (h : Transcribed m t) (hfinds : query.Finds m t ref) :
    ∃ e, m.resolve .builtin query ref = .ok (t, e) ∧ m.indexedBy ref = .ok e.parameters ∧
      e.Answerable m := by
  -- by what is found, and for an object by the group that the query reads
  cases hfinds with
  | object kind live =>
    cases query with
    | vars =>
      obtain ⟨name, parameters, hi⟩ := Model.exists_indexed kind live
      obtain ⟨e, he, rfl, -, hanswerable⟩ := h.exists_vars hi
      exact h.exists_of_group rfl (Query.handler_vars kind) h.onGrid.vars h.unasked.vars he
        (Model.indexedBy_of_indexed hi) hanswerable.distinct
    | measures =>
      have hk := List.mem_singleton.1 kind
      rw [hk] at live
      obtain ⟨e, he⟩ := Option.isSome_iff_exists.1 (h.complete.measures ref live)
      obtain ⟨own, hdistinct⟩ := h.keyed.measures ref e he
      refine h.exists_of_group rfl (by rw [hk]; rfl) h.onGrid.measures h.unasked.measures he ?_
        hdistinct
      rw [Model.indexedBy_of_ne (by rw [hk]; decide), Model.parametersOf_of_ne (by rw [hk]; decide)]
      exact own
    | constraints =>
      -- constraints answer for themselves, derivatives with their evaluations
      rcases List.mem_pair.1 kind with hk | hk <;> rw [hk] at live
      · obtain ⟨e, he⟩ := Option.isSome_iff_exists.1 (h.complete.constraints ref live)
        obtain ⟨own, hdistinct⟩ := h.keyed.constraints ref e he
        refine h.exists_of_group rfl (by rw [hk]; rfl) h.onGrid.constraints h.unasked.constraints
          he ?_ hdistinct
        rw [Model.indexedBy_of_ne (by rw [hk]; decide)]
        exact own
      · obtain ⟨e, he⟩ := Option.isSome_iff_exists.1 (h.complete.evaluations ref live)
        obtain ⟨⟨d, hd, hparameters⟩, hdistinct⟩ := h.keyed.evaluations ref e he
        refine h.exists_of_group rfl (by rw [hk]; rfl) h.onGrid.evaluations h.unasked.evaluations
          he ?_ hdistinct
        obtain ⟨hid, hk, hget⟩ := Model.derivative_eq_ok.1 hd
        have hi : m.indexed ref = .ok (d.name, d.parameters) :=
          Model.indexed_eq_ok.2 ⟨hid, .inr ⟨d, hk, hget, rfl, rfl⟩⟩
        rw [hparameters]
        exact Model.indexedBy_of_indexed hi
  | @reduced i recorded =>
    have hmem := List.getElem_mem recorded
    obtain ⟨⟨found, hi⟩, hdistinct⟩ := h.keyed.reduced _ hmem
    have hvalid := Model.isValid_of_indexed hi
    have hanswerable : t.reduced[i].entry.Answerable m :=
      ⟨h.onGrid.reduced _ hmem, hdistinct, h.unasked.reduced _ hmem⟩
    refine ⟨t.reduced[i].entry.map .index, Model.resolve_of_recorded h.attached recorded hvalid, ?_,
      hanswerable.map _⟩
    exact Except.bind_eq_ok.2 ⟨_, Model.reducedVariable_of_recorded h.attached recorded hvalid, rfl⟩

/-- The rows of an infinite variable or derivative are those of its grid. -/
theorem keys_eq_grid (h : Transcribed m t) (hfinds : Query.vars.Finds m t ref)
    (hk : ref.kind.isInfiniteVariable = true) {e : Entry α (Counterpart α)}
    (hresolve : m.resolve .builtin .vars ref = .ok (t, e)) :
    (∃ name, m.indexed ref = .ok (name, e.parameters)) ∧ e.keys = m.grid e.parameters := by
  cases hfinds with
  | object kind live =>
    obtain ⟨name, parameters, hi⟩ := Model.exists_indexed kind live
    obtain ⟨e₀, he₀, rfl, hkeys, -⟩ := h.exists_vars hi
    have hfound := Model.resolve_of_group h.attached (Query.handler_vars kind)
      (Entries.get?_map Counterpart.index he₀)
    obtain rfl : e = e₀.map .index := by
      simpa using hresolve.symm.trans hfound
    exact ⟨⟨name, hi⟩, (Entry.keys_map _ _).trans hkeys⟩
  | reduced recorded => cases hk

end Transcribed

/-! ## Builds -/

/-- Attaching a transcription changes nothing that a transcription depends on. -/
theorem Model.transcribe_markReady (m : Model α) (t : Option (Transcription α)) (verbose : Bool) :
    (m.markReady t).transcribe verbose = m.transcribe verbose := by
  rw [← transcribe_unready (m.markReady t), ← transcribe_unready m]
  rfl

/-- No query has been answered from the entries of a transcription that was just made. -/
theorem Model.unasked_of_transcribe {m : Model α} {verbose : Bool} {t : Transcription α}
    (h : m.transcribe verbose = .ok t) : t.Every fun e => e.memo = [] := by
  obtain ⟨t', -, rfl⟩ := transcribe_eq_ok.1 h
  exact ⟨List.forall_mem_map.2 fun _ _ => rfl, List.forall_mem_map.2 fun _ _ => rfl,
    List.forall_mem_map.2 fun _ _ => rfl, List.forall_mem_map.2 fun _ _ => rfl,
    List.forall_mem_map.2 fun _ _ => rfl⟩

/-- A build is a request. -/
theorem Requested.build {m : Model α} (h : Requested m) {e : Environment α} {verbose : Option Bool}
    {t : Transcription α} {w' : Workspace α}
    (hbuild : Transcription.build verbose ⟨e, m⟩ = .ok t w') : Requested w'.model := by
  have hrun : (Request.build verbose).operation ⟨e, m⟩ = .ok () w' := Operation.discard_eq_ok hbuild
  exact h.of_run hrun

variable [LawfulScalar α]

/-- What a build makes belongs to the model that it leaves behind. -/
theorem transcribed_of_build {m : Model α} (h : Requested m) {e : Environment α}
    {verbose : Option Bool} {t : Transcription α} {w' : Workspace α}
    (hbuild : Transcription.build verbose ⟨e, m⟩ = .ok t w') (hd : w'.model.Defined)
    (hgrid : t.OnGrid w'.model) : Transcribed w'.model t := by
  obtain ⟨w₁, -, -, ⟨verbose', ht⟩, hmodel⟩ := exists_of_build hbuild
  have htranscribe : w'.model.transcribe verbose' = .ok t := by
    rw [hmodel, Model.transcribe_markReady, ht]
  exact ⟨by rw [hmodel]; rfl, (Model.grows_of_transcribe htranscribe).2,
    Model.complete_of_transcribe htranscribe,
    keyed_of_transcribe (h.build hbuild).sound hd htranscribe, hgrid,
    Model.unasked_of_transcribe htranscribe⟩

/-- After a build of any model that comes about by requests, if all supports are defined and all
keys consist of supports, queries answer for whatever they find: for every label, counterparts and
supports are those of the same rows, the ones whose keys have a covered label at every value. For an
infinite variable or derivative, these keys are the combined supports that the store selects for its
parameters. -/
theorem answers_of_build {m : Model α} (h : Requested m) {e : Environment α}
    {verbose : Option Bool} {t : Transcription α} {w' : Workspace α}
    (hbuild : Transcription.build verbose ⟨e, m⟩ = .ok t w') (hd : w'.model.Defined)
    (hgrid : t.OnGrid w'.model) {query : Query} {ref : Ref}
    (hfinds : query.Finds w'.model t ref) :
    ∃ parameters, w'.model.indexedBy ref = .ok parameters ∧ (parameters ≠ [] →
      ∃ rows, w'.model.Answers query ref parameters rows ∧
        (query = .vars → ref.kind.isInfiniteVariable = true →
          ∀ (label : Label) (s : Session α), s.models[w'.model.id]? = some w'.model →
            Session.supportsOf parameters label true s = .ok (.ofColumns parameters.length
              ((w'.model.selectRows label parameters rows).map (·.1))) s)) := by
  have ht := transcribed_of_build h hbuild hd hgrid
  have hsound := (h.build hbuild).sound
  have hm := selectable_of_requested (h.build hbuild) hd
  obtain ⟨entry, hresolve, hparameters, hanswerable⟩ := ht.exists_entry hfinds
  refine ⟨entry.parameters, hparameters, fun hne => ⟨entry.rows,
    Model.answers_of_resolve hsound hm ht.snapshot hresolve hne hanswerable, ?_⟩⟩
  -- the keys of an indexed object are the whole grid, from which the store selects too
  rintro rfl hk label s hs
  obtain ⟨⟨name, hi⟩, hkeys⟩ := ht.keys_eq_grid hfinds hk hresolve
  rw [Model.map_fst_selectRows, ← Entry.keys, hkeys]
  exact Session.supportsOf_eq hm hs hne (hsound.live_of_indexed hi) label

/-- A variable over two parameters, one of which has got an internal support half-way for its
derivative. -/
theorem answers_of_build_collocated :
    let a : Ref := ⟨0, .parameter, 1⟩
    let b : Ref := ⟨0, .parameter, 2⟩
    let x : Ref := ⟨0, .infiniteVariable, 1⟩
    let m : Model ℚ := Request.replay { id := 0 }
      [.addParameter (.scalar (.interval 0 1)) "a" (some [0, 1]) 0 (some 6)
        (.orthogonalCollocation 3),
      .addParameter (.scalar (.interval 0 1)) "b" (some [0, 1]) 0 (some 6)
        (.finiteDifference .backward),
      .addInfiniteVariable "x" [.given a, .given b] none none .none false,
      .addDerivative (.given x) a "dx" (.ok "a")]
    Requested m ∧ ∃ t w', Transcription.build none ⟨{}, m⟩ = .ok t w' ∧ w'.model.Defined ∧
      t.OnGrid w'.model ∧ Query.vars.Finds w'.model t x ∧ ∃ rows,
        w'.model.Answers .vars x [a, b] rows ∧
        rows.map (·.1) = [[0, 0], [0, 1], [1 / 2, 0], [1 / 2, 1], [1, 0], [1, 1]] ∧
        (w'.model.selectRows .visible [a, b] rows).map (·.1) =
          [[0, 0], [0, 1], [1, 0], [1, 1]] := by
  intro a b x m
  have hr : Requested m := .replay (.start 0 "model") _
  -- the rows are known from what the queries answer, so only queries are run
  have hrun : Ends (Transcription.build none) ⟨{}, m⟩ (fun t w' =>
      w'.model.allDefined = true ∧
      ((∀ row ∈ t.vars, row.2.OnGrid w'.model) ∧ (∀ row ∈ t.measures, row.2.OnGrid w'.model) ∧
        (∀ row ∈ t.constraints, row.2.OnGrid w'.model) ∧
        (∀ row ∈ t.evaluations, row.2.OnGrid w'.model) ∧
        ∀ r ∈ t.reduced, r.entry.OnGrid w'.model) ∧
      x ∈ w'.model.liveRefs .infiniteVariable ∧
      ((w'.model.indexedBy x).toOption.any fun parameters =>
        decide (parameters = [a, b])) = true ∧
      ((w'.model.counterpartSupports .builtin .vars x .all).toOption.any fun all => decide (all =
        .tuples [[0, 0], [0, 1], [1 / 2, 0], [1 / 2, 1], [1, 0], [1, 1]])) = true ∧
      ((w'.model.counterpartSupports .builtin .vars x .visible).toOption.any fun shown =>
        decide (shown = .tuples [[0, 0], [0, 1], [1, 0], [1, 1]])) = true)
      fun _ => False := by decide +kernel
  obtain ⟨t, w', hbuild, hdefined, ⟨hvars, hmeasures, hconstraints, hevaluations, hreduced⟩,
    hlive, hparameters, hall, hvisible⟩ := hrun.exists_ok
  have hd : w'.model.Defined := Model.defined_of_allDefined hdefined
  have hgrid : t.OnGrid w'.model := ⟨hvars, hmeasures, hconstraints, hevaluations, hreduced⟩
  have hfinds : Query.vars.Finds w'.model t x := .object (by decide) hlive
  obtain ⟨_, hparameters, rfl⟩ := Except.exists_of_decide _ hparameters
  obtain ⟨_, hall, rfl⟩ := Except.exists_of_decide _ hall
  obtain ⟨_, hvisible, rfl⟩ := Except.exists_of_decide _ hvisible
  obtain ⟨parameters, hindexed, hrest⟩ := answers_of_build hr hbuild hd hgrid hfinds
  obtain rfl : [a, b] = parameters := Except.ok.inj (hparameters.symm.trans hindexed)
  obtain ⟨rows, hanswers, -⟩ := hrest (List.cons_ne_nil _ _)
  have hsame := Except.ok.inj (hall.symm.trans hanswers.allSupports)
  have hshown := Except.ok.inj (hvisible.symm.trans (hanswers.supports .visible))
  exact ⟨hr, t, w', hbuild, hd, hgrid, hfinds, rows, hanswers,
    (SupportList.tuples.inj hsame).symm, (SupportList.tuples.inj hshown).symm⟩

end Discretization
