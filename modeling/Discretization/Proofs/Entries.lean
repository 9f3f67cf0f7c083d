import Discretization.Proofs.Objects
import Discretization.Proofs.Runs
import Discretization.Transcription.Builder

/-!
# Entries of a Transcription

How entries are set and looked up, and what every step of a transcription keeps: entries are never
taken away, and the snapshot of the supports and the naming do not change.

## Main definitions

* `Entry.Grown`: an entry is put in place, or gets a key that it does not have;
* `Transcription.Grows`: the second transcription has every entry of the first;
* `Building.Expresses`, `Building.Admits`: a relation that every change on the way to an expression,
  or to a transcription, keeps to.

## Main results

* `Entries.get?_set`: what is found after setting an entry;
* `Building.Admits.run`, `Building.admits_grows`: all passes keep to such a relation, and growth is
  one;
* `Building.ends_run`: every live object has its entry in the end.
-/

namespace Discretization

namespace Entries

variable {κ β : Type} {ref ref' : Ref}

theorem get?_cons (r : Ref) (e : Entry κ β) (rest : Entries κ β) :
    get? ((r, e) :: rest) ref = if r = ref then some e else get? rest ref := by
  rw [get?, List.find?_cons]
  by_cases h : r = ref <;> simp [h, get?]

/-- What is found after setting an entry: it, or what was found before. -/
theorem get?_set (entries : Entries κ β) (entry : Entry κ β) :
    get? (set entries ref entry) ref' = if ref' = ref then some entry else get? entries ref' := by
  -- on the rows: an entry replaces the first row of its reference, or is put at the end
  induction entries with
  | nil =>
    rw [set, get?_cons]
    simp [eq_comm]
  | cons row rest ih =>
    obtain ⟨r, e⟩ := row
    rw [set]
    split
    · rename_i hr
      subst hr
      rw [get?_cons, get?_cons]
      by_cases h : ref' = r <;> simp [h, eq_comm]
    · rename_i hr
      rw [get?_cons, get?_cons, ih]
      by_cases h : r = ref'
      · subst h
        simp [hr]
      · simp [h]

theorem get?_set_self (entries : Entries κ β) (ref : Ref) (entry : Entry κ β) :
    get? (set entries ref entry) ref = some entry := by
  rw [get?_set, if_pos rfl]

theorem get?_set_of_ne (entries : Entries κ β) (entry : Entry κ β) (h : ref' ≠ ref) :
    get? (set entries ref entry) ref' = get? entries ref' := by
  rw [get?_set, if_neg h]

theorem get?_mapKeys {ι : Type} (f : κ → ι) (entries : Entries κ β) (ref : Ref) :
    get? (entries.mapKeys f) ref = (get? entries ref).map (·.mapKeys f) := by
  induction entries with
  | nil => rfl
  | cons row rest ih =>
    obtain ⟨r, e⟩ := row
    rw [mapKeys, List.map_cons, ← mapKeys, get?_cons, get?_cons, ih]
    split <;> rfl

theorem get?_mapKeys_of_some {ι : Type} (f : κ → ι) {entries : Entries κ β} {ref : Ref}
    {e : Entry κ β} (h : get? entries ref = some e) :
    get? (entries.mapKeys f) ref = some (e.mapKeys f) := by
  rw [get?_mapKeys, h]
  rfl

end Entries

theorem Entry.keys_mapKeys {κ ι β : Type} (f : κ → ι) (e : Entry κ β) :
    (e.mapKeys f).keys = e.keys.map (List.map f) := by
  simp [keys, mapKeys]

/-- No two keys of an entry are the same. -/
def Entry.Distinct {κ β : Type} [BEq κ] (e : Entry κ β) : Prop :=
  e.rows.Pairwise fun row row' => (row.1 == row'.1) = false

theorem Entry.distinct_blank {κ β : Type} [BEq κ] {parameters : List Ref} :
    Entry.Distinct (κ := κ) (β := β) { parameters } :=
  .nil

/-- A key that an entry does not have can be added to it. -/
theorem Entry.Distinct.snoc {κ β : Type} [BEq κ] {e : Entry κ β} (h : e.Distinct) {key : List κ}
    {c : β} (hnew : e.position? key = none) :
    Entry.Distinct { e with rows := e.rows ++ [(key, c)], memo := [] } := by
  refine List.pairwise_append.2 ⟨h, List.pairwise_singleton _ _, fun row hrow row' hrow' => ?_⟩
  rw [List.mem_singleton.1 hrow']
  rw [position?, List.findIdx?_eq_none_iff] at hnew
  exact hnew row hrow

/-- How the entry of an object comes about: it is put in place without keys, or one more key is
added to the entry that is there, if any. -/
inductive Entry.Grown {κ β : Type} [BEq κ] (parameters : List Ref) (old : Option (Entry κ β)) :
    Entry κ β → Prop where
  | blank (missing : old = none) : Grown parameters old { parameters }
  | key {key : List κ} (counterpart : β)
      (new : (old.getD { parameters }).position? key = none) :
      Grown parameters old { old.getD { parameters } with
        rows := (old.getD { parameters }).rows ++ [(key, counterpart)], memo := [] }

namespace Transcription

variable {α κ : Type}

/-- The supports and the naming are the same, and objects with an entry keep one. -/
structure Grows (t t' : Transcription α κ) : Prop where
  snapshot : t'.snapshot = t.snapshot
  verbose : t'.verbose = t.verbose
  vars : ∀ ref, (t.vars.get? ref).isSome = true → (t'.vars.get? ref).isSome = true
  measures : ∀ ref, (t.measures.get? ref).isSome = true → (t'.measures.get? ref).isSome = true
  constraints : ∀ ref, (t.constraints.get? ref).isSome = true →
    (t'.constraints.get? ref).isSome = true
  evaluations : ∀ ref, (t.evaluations.get? ref).isSome = true →
    (t'.evaluations.get? ref).isSome = true

instance : IsPreorder (Transcription α κ) Grows where
  refl _ := ⟨rfl, rfl, fun _ h => h, fun _ h => h, fun _ h => h, fun _ h => h⟩
  trans _ _ _ h h' :=
    ⟨h'.snapshot.trans h.snapshot, h'.verbose.trans h.verbose,
      fun ref hr => h'.vars ref (h.vars ref hr), fun ref hr => h'.measures ref (h.measures ref hr),
      fun ref hr => h'.constraints ref (h.constraints ref hr),
      fun ref hr => h'.evaluations ref (h.evaluations ref hr)⟩

end Transcription

theorem Entries.isSome_get?_set {κ β : Type} (entries : Entries κ β) (ref : Ref) (entry : Entry κ β)
    (ref' : Ref) (h : (entries.get? ref').isSome = true) :
    ((entries.set ref entry).get? ref').isSome = true := by
  rw [Entries.get?_set]
  split
  · rfl
  · exact h

namespace Building

open Transcription

variable {α β : Type}

/-! ## Steps -/

section Steps

variable {t : Transcription α (Coordinate α)} {fail : Transcription α (Coordinate α) → Prop}

@[simp]
theorem ends_check {ok : β → Transcription α (Coordinate α) → Prop}
    (result : Except (Error α) β) :
    Ends (check result) t ok fail ↔
      (∀ b, result = .ok b → ok b t) ∧ (∀ e, result = .error e → fail t) := by
  cases result <;> simp [check]

@[simp]
theorem ends_appendVariable {ok : Nat → Transcription α (Coordinate α) → Prop}
    (v : FiniteVariable α) :
    Ends (appendVariable v) t ok fail ↔ ok t.finite.vars.length
      { t with finite := { t.finite with vars := t.finite.vars ++ [v] } } := by
  simp only [appendVariable, ends_bind, ends_get, ends_modify, ends_pure, FiniteModel.addVariable]

@[simp]
theorem ends_appendConstraint [Scalar α] {ok : Nat → Transcription α (Coordinate α) → Prop}
    (e : Expression α) (sense : Sense) (rhs : α) (name : String) :
    Ends (appendConstraint e sense rhs name) t ok fail ↔ ok t.finite.constraints.length
      { t with finite := { t.finite with constraints := t.finite.constraints ++
        [⟨name, { e with constant := 0 }, sense, rhs - e.constant⟩] } } := by
  simp only [appendConstraint, ends_bind, ends_get, ends_modify, ends_pure,
    FiniteModel.addConstraint]

/-- A key is appended to an entry if it is not there already. -/
theorem ends_insert_new [Scalar α] {e : Entry (Coordinate α) β} {key : List (Coordinate α)} {c : β}
    {ok : Entry (Coordinate α) β → Transcription α (Coordinate α) → Prop}
    (h : e.position? key = none → ok { e with rows := e.rows ++ [(key, c)], memo := [] } t)
    (hfail : fail t) : Ends (insert e key c) t ok fail := by
  unfold insert Entry.insert?
  cases hposition : e.position? key with
  | some i => exact (ends_throw _).2 hfail
  | none => exact (ends_pure _).2 (h hposition)

/-- The entry of a variable is there in the end. -/
theorem ends_variableEntry_of {ref : Ref} {parameters : List Ref}
    {ok : Entry (Coordinate α) Nat → Transcription α (Coordinate α) → Prop}
    (hsome : ∀ e, t.vars.get? ref = some e → ok e t)
    (hnone : t.vars.get? ref = none →
      ok { parameters } { t with vars := t.vars.set ref { parameters } }) :
    Ends (variableEntry ref parameters) t ok fail := by
  unfold variableEntry
  rw [ends_bind, ends_get]
  split
  · rename_i e he
    exact (ends_pure e).2 (hsome e he)
  · rename_i he
    dsimp only
    rw [ends_bind, ends_modify, ends_pure]
    exact hnone he

/-- The entry of a measure is there in the end. -/
theorem ends_measureEntry_of {ref : Ref} {parameters : List Ref}
    {ok : Entry (Coordinate α) (Expression α) → Transcription α (Coordinate α) → Prop}
    (hsome : ∀ e, t.measures.get? ref = some e → ok e t)
    (hnone : t.measures.get? ref = none →
      ok { parameters } { t with measures := t.measures.set ref { parameters } }) :
    Ends (measureEntry ref parameters) t ok fail := by
  unfold measureEntry
  rw [ends_bind, ends_get]
  split
  · rename_i e he
    exact (ends_pure e).2 (hsome e he)
  · rename_i he
    dsimp only
    rw [ends_bind, ends_modify, ends_pure]
    exact hnone he

end Steps

section Preorders

variable {R F : Transcription α (Coordinate α) → Transcription α (Coordinate α) → Prop}
  [IsPreorder (Transcription α (Coordinate α)) R] [Absorbs R F]

omit [IsPreorder (Transcription α (Coordinate α)) R] in
theorem moves_check_bind {γ : Type} {result : Except (Error α) β} {f : β → Building α γ}
    (h : ∀ b, result = .ok b → Moves R (f b) F) : Moves R (check result >>= f) F := by
  cases result with
  | ok b => exact h b rfl
  | error e => exact .throw_bind e f

theorem moves_insert [Scalar α] (entry : Entry (Coordinate α) β) (key : List (Coordinate α))
    (counterpart : β) : Moves R (insert entry key counterpart) F := by
  unfold insert
  split
  · exact .pure _
  · exact .throw _

theorem moves_keys (parameters : List Ref) : Moves R (keys (α := α) parameters) F :=
  Moves.get.bind fun _ => Moves.bind (.mapM fun _ => moves_check_bind fun _ _ => .pure _)
    fun _ => .pure _

end Preorders

/-! ## Relations that a transcription keeps to -/

/-- New variables and their entries keep to a relation. The entries of variables that have
parameters only ever gain keys. -/
structure Widens [Scalar α]
    (R : Transcription α (Coordinate α) → Transcription α (Coordinate α) → Prop) : Prop where
  entry (t : Transcription α (Coordinate α)) {ref : Ref} {entry : Entry (Coordinate α) Nat}
    (grown : ref.kind.isInfiniteVariable = true →
      ∃ parameters, entry.Grown parameters (t.vars.get? ref)) :
    R t { t with vars := t.vars.set ref entry }
  append (t : Transcription α (Coordinate α)) (v : FiniteVariable α) :
    R t { t with finite := { t.finite with vars := t.finite.vars ++ [v] } }

/-- Every change on the way to an expression keeps to a relation, if it succeeds. The expression of
a measure and the reduced variables that belong to it are one change. -/
structure Expresses [Scalar α] (m : Model α)
    (R F : Transcription α (Coordinate α) → Transcription α (Coordinate α) → Prop) : Prop
    extends Widens R where
  measureEntry (t : Transcription α (Coordinate α)) {ref : Ref} {parameters : List Ref}
    (own : m.functionParameters ref = .ok parameters) (missing : t.measures.get? ref = none) :
    R t { t with measures := t.measures.set ref { parameters } }
  record {ref : Ref} {μ : Measure α} {points : List (List α)} {parameters : List Ref}
    (measure : m.measure ref = .ok μ) (rounded : roundedPoints m μ.data = .ok points)
    (own : m.functionParameters ref = .ok parameters) (key : List (Coordinate α))
    (result : Expression α) : Moves R (do
      let entry ← Building.measureEntry ref parameters
      let entry ← insert entry key result
      modify fun t => { t with measures := t.measures.set ref entry }
      reduce m μ.function μ.data.parameters points
      return result) F

/-- Every change on the way to a transcription keeps to a relation, if it succeeds. -/
structure Admits [Scalar α] (m : Model α)
    (R F : Transcription α (Coordinate α) → Transcription α (Coordinate α) → Prop) : Prop
    extends Expresses m R F where
  constraintStart (t : Transcription α (Coordinate α)) {ref : Ref} {parameters : List Ref}
    (own : m.parametersOf ref = .ok parameters) :
    R t { t with constraints := t.constraints.set ref { parameters } }
  constraintEntry (t : Transcription α (Coordinate α)) {ref : Ref} {parameters : List Ref}
    {entry : Entry (Coordinate α) Nat} (own : m.parametersOf ref = .ok parameters)
    (grown : entry.Grown parameters (t.constraints.get? ref)) :
    R t { t with constraints := t.constraints.set ref entry }
  evaluationStart (t : Transcription α (Coordinate α)) {ref : Ref} {d : Derivative}
    (own : m.derivative ref = .ok d) :
    R t { t with evaluations := t.evaluations.set ref { parameters := d.parameters } }
  evaluationEntry (t : Transcription α (Coordinate α)) {ref : Ref} {d : Derivative}
    {entry : Entry (Coordinate α) Nat} (own : m.derivative ref = .ok d)
    (grown : entry.Grown d.parameters (t.evaluations.get? ref)) :
    R t { t with evaluations := t.evaluations.set ref entry }
  constraint (t : Transcription α (Coordinate α)) (c : FiniteConstraint α) :
    R t { t with finite := { t.finite with constraints := t.finite.constraints ++ [c] } }

section Relations

variable {R F : Transcription α (Coordinate α) → Transcription α (Coordinate α) → Prop}
  [IsPreorder (Transcription α (Coordinate α)) R] [Absorbs R F] [Scalar α]

namespace Widens

/-- The entry of a variable is found or put in place, and then it is there. -/
theorem ends_variableEntry (h : Widens R) (t : Transcription α (Coordinate α)) (ref : Ref)
    (parameters : List Ref) {fail : Transcription α (Coordinate α) → Prop} :
    Ends (variableEntry ref parameters) t (fun e t' => R t t' ∧ t'.vars.get? ref = some e) fail :=
  ends_variableEntry_of (fun _ he => ⟨refl_of R t, he⟩) fun hmissing =>
    ⟨h.entry t fun _ => ⟨parameters, .blank hmissing⟩, Entries.get?_set_self _ _ _⟩

omit [Absorbs R F] in
theorem variableEntry (h : Widens R) (ref : Ref) (parameters : List Ref) :
    Moves R (variableEntry (α := α) ref parameters) F :=
  ⟨fun t => (h.ends_variableEntry t ref parameters).mono (fun _ _ h' => h'.1) fun _ h' => h'⟩

omit [IsPreorder (Transcription α (Coordinate α)) R] [Absorbs R F] in
theorem appendVariable (h : Widens R) (v : FiniteVariable α) : Moves R (appendVariable v) F :=
  ⟨fun t => (ends_appendVariable v).2 (h.append t v)⟩

theorem variableAt (h : Widens R) (m : Model α) (ref : Ref) (key : List (Coordinate α)) :
    Moves R (variableAt m ref key) F := by
  refine moves_check_bind fun (base, parameters) _ => ⟨fun t => ?_⟩
  rw [ends_bind]
  refine (h.ends_variableEntry t ref parameters).mono ?_ fun _ h' => h'
  rintro entry t₁ ⟨h₁, hentry⟩
  split
  · exact (ends_pure _).2 h₁
  · rw [ends_bind, ends_get, ends_bind, ends_appendVariable, ends_bind]
    have h₂ := trans_of R h₁ (h.append t₁ (finiteVariable m ref
      (counterpartName t₁.verbose base key entry.size) key))
    -- appending the variable leaves the entry that the key is added to where it is
    refine ends_insert_new (fun hnew => ?_) (Absorbs.step h₂ (Absorbs.refl R _))
    rw [ends_bind, ends_modify, ends_pure]
    refine trans_of R h₂ (h.entry _ fun _ => ⟨parameters, ?_⟩)
    rw [hentry]
    exact .key _ hnew

/-- What the finite variable of a finite or point variable is made by, once it has an entry. -/
theorem singleRest (h : Widens R) (m : Model α) (ref : Ref) (entry : Entry (Coordinate α) Nat) :
    Moves R (match entry.isFinite, entry.rows with
      | true, (_, position) :: _ => return position
      | _, _ => do
        let position ←
          if ref.kind = .pointVariable then do
            let v ← check (m.pointVariable ref)
            Building.variableAt m v.ref (Coordinate.ofValues v.values)
          else Building.appendVariable (← check (m.finiteVariable ref))
        let entry ← insert entry [] position
        modify fun t => { t with vars := t.vars.set ref entry }
        return position : Building α Nat) F := by
  -- both ways of making the variable end by inserting it into the entry
  have finish (hk : ref.kind.isInfiniteVariable = false) : ∀ position : Nat, Moves R (do
      let entry ← insert entry [] position
      modify fun t => { t with vars := t.vars.set ref entry }
      return position : Building α Nat) F := fun _ =>
    (moves_insert _ _ _).bind fun _ => Moves.bind
      (.modify fun t => h.entry t fun hk' => absurd (hk.symm.trans hk') nofun) fun _ => .pure _
  split
  · exact .pure _
  · dsimp only
    split
    · rename_i hk
      exact moves_check_bind fun v _ => (h.variableAt m _ _).bind fun _ =>
        finish (by rw [hk]; rfl) _
    · refine moves_check_bind fun v hv => (h.appendVariable v).bind fun _ => finish ?_ _
      rw [(Model.finiteVariable_eq_ok.1 hv).2.1]
      rfl

theorem singleVariable (h : Widens R) (m : Model α) (ref : Ref) :
    Moves R (singleVariable m ref) F :=
  (h.variableEntry _ _).bind fun entry => h.singleRest m ref entry

theorem singleTurn (h : Widens R) (m : Model α) (ref : Ref) : Moves R (do
    let _ ← Building.singleVariable m ref
    return ForInStep.yield PUnit.unit : Building α (ForInStep PUnit)) F :=
  (h.singleVariable m ref).bind fun _ => .pure _

theorem indexedTurn (h : Widens R) (m : Model α) (ref : Ref) : Moves R (do
    let (_, parameters) ← check (m.indexed ref)
    let _ ← Building.variableEntry ref parameters
    for key in ← keys parameters do
      let _ ← Building.variableAt m ref key
    return ForInStep.yield PUnit.unit : Building α (ForInStep PUnit)) F := by
  refine moves_check_bind fun (_, parameters) _ => (h.variableEntry _ _).bind fun _ =>
    (moves_keys _).bind fun keys => Moves.bind (.forIn (fun key _ => ?_) _) fun _ => .pure _
  exact (h.variableAt m ref key).bind fun _ => .pure _

theorem vars (h : Widens R) (m : Model α) : Moves R (vars m) F :=
  Moves.bind (.forIn (fun ref _ => h.singleTurn m ref) _) fun _ =>
    Moves.bind (.forIn (fun ref _ => h.indexedTurn m ref) _) fun _ =>
      Moves.bind (.forIn (fun ref _ => h.singleTurn m ref) _) fun _ => .pure _

omit [IsPreorder (Transcription α (Coordinate α)) R] [Absorbs R F] in
/-- Keys that are added one after the other stand behind those that are there, and differ from each
other. -/
theorem ends_foldlM_insert (t : Transcription α (Coordinate α)) {β : Type}
    (rows : List (List (Coordinate α) × β)) {e : Entry (Coordinate α) β} (he : e.Distinct) :
    Ends (rows.foldlM (fun entry (key, c) => insert entry key c) e) t
      (fun e' t' => t' = t ∧ e'.parameters = e.parameters ∧ e'.rows = e.rows ++ rows ∧ e'.Distinct)
      fun t' => t' = t := by
  refine Ends.foldlM (fun gone (e' : Entry (Coordinate α) β) t' => t' = t ∧
    e'.parameters = e.parameters ∧ e'.rows = e.rows ++ gone ∧ e'.Distinct)
    ⟨rfl, rfl, (List.append_nil _).symm, he⟩ ?_
  rintro gone ⟨key, c⟩ rest e' t' - ⟨rfl, hparameters, hrows, he'⟩
  refine ends_insert_new (fun hnew => ⟨rfl, hparameters, ?_, he'.snoc hnew⟩) rfl
  rw [hrows, List.append_assoc]

/-- Reducing a variable makes variables where they are missing. -/
theorem reduce (h : Widens R) (m : Model α)
    (hreduced : ∀ (t : Transcription α (Coordinate α)) (r : ReducedVariable α (Coordinate α)) found,
      m.indexed r.ref = .ok found → r.entry.Distinct → R t { t with reduced := t.reduced ++ [r] })
    (function : Ref) (measured : List Ref) (points : List (List α)) :
    Moves R (reduce m function measured points) F := by
  unfold Building.reduce
  split
  · refine moves_check_bind fun (name, parameters) hi => ?_
    dsimp only
    split
    · refine Moves.bind (.forIn (fun point _ => Moves.bind .get fun _ => ?_) _) fun _ => .pure _
      split
      · exact .pure _
      · refine (moves_keys _).bind fun keys => Moves.bind (.mapM fun key => ?_) fun rows =>
          ⟨fun t => ?_⟩
        · exact moves_check_bind fun _ _ => (h.variableAt m _ _).bind fun _ => .pure _
        · -- the keys are new ones, as the entry starts blank, so that its rows stay distinct
          rw [ends_bind]
          refine (ends_foldlM_insert t rows Entry.distinct_blank).mono ?_
            fun _ h' => by rw [h']; exact Absorbs.refl R t
          rintro entry _ ⟨rfl, -, -, hdistinct⟩
          rw [ends_bind, ends_modify]
          exact (ends_pure _).2 (hreduced _ _ _ hi hdistinct)
    · exact .pure _
  · exact .pure _

/-- Remembering the expression of a measure keeps to a relation that says nothing of what is
remembered. -/
theorem record (h : Widens R) (m : Model α)
    (hmeasures : ∀ (t : Transcription α (Coordinate α)) ref entry,
      R t { t with measures := t.measures.set ref entry })
    (hreduced : ∀ (t : Transcription α (Coordinate α)) r,
      R t { t with reduced := t.reduced ++ [r] })
    (ref : Ref) (parameters : List Ref) (key : List (Coordinate α)) (result : Expression α)
    (function : Ref) (measured : List Ref) (points : List (List α)) : Moves R (do
      let entry ← Building.measureEntry ref parameters
      let entry ← insert entry key result
      modify fun t => { t with measures := t.measures.set ref entry }
      Building.reduce m function measured points
      return result) F := by
  refine Moves.bind ⟨fun t => ?_⟩ fun entry => (moves_insert _ _ _).bind fun _ =>
    Moves.bind (.modify fun t => hmeasures t _ _) fun _ =>
      (h.reduce m (fun t r _ _ _ => hreduced t r) _ _ _).bind fun _ => .pure _
  exact ends_measureEntry_of (fun _ _ => refl_of R t) fun _ => hmeasures t _ _

end Widens

namespace Expresses

variable {m : Model α}

omit [Absorbs R F] in
theorem findMeasureEntry (h : Expresses m R F) {ref : Ref} {parameters : List Ref}
    (own : m.functionParameters ref = .ok parameters) :
    Moves R (Building.measureEntry (α := α) ref parameters) F :=
  ⟨fun t => ends_measureEntry_of (fun _ _ => refl_of R t) fun hmissing =>
    h.measureEntry t own hmissing⟩

/-- Induction on the rank of the object: a measure asks for expressions of its function only. -/
theorem expression (h : Expresses m R F) (ref : Ref) (point : Point (Coordinate α)) :
    Moves R (expression m ref point) F := by
  -- the function of a measure has a smaller rank than the measure
  induction hrank : ref.rank using Nat.strongRecOn generalizing ref point with
  | ind rank ih =>
    unfold Building.expression
    split
    · split
      · exact .pure _
      · exact .throw _
    · exact (h.singleVariable m ref).bind fun _ => .pure _
    · exact (h.singleVariable m ref).bind fun _ => .pure _
    · refine moves_check_bind fun found _ => ?_
      exact moves_check_bind fun _ _ => (h.variableAt m _ _).bind fun _ => .pure _
    · refine moves_check_bind fun found _ => ?_
      exact moves_check_bind fun _ _ => (h.variableAt m _ _).bind fun _ => .pure _
    · refine moves_check_bind fun parameters hf => moves_check_bind fun key _ =>
        moves_check_bind fun μ hμ => (h.findMeasureEntry hf).bind fun entry => ?_
      split
      · exact .pure _
      · refine moves_check_bind fun weights _ => moves_check_bind fun points hpoints => ?_
        split
        · rename_i hlt
          refine Moves.bind (.foldlM (fun sum row => ?_) _) fun result =>
            h.record hμ hpoints hf _ _
          exact (ih _ (hrank ▸ hlt) _ _ rfl).bind fun _ => .pure _
        · exact .throw _
    · exact .throw _

theorem combination (h : Expresses m R F) (terms : List (α × Ref))
    (point : Point (Coordinate α)) : Moves R (combination m terms point) F :=
  .foldlM (fun _ _ => (h.expression _ _).bind fun _ => .pure _) _

theorem measureTurn (h : Expresses m R F) (ref : Ref) : Moves R (do
    let parameters ← check (m.functionParameters ref)
    let _ ← Building.measureEntry ref parameters
    for key in ← keys parameters do
      let _ ← Building.expression m ref (parameters.zip key)
    return ForInStep.yield PUnit.unit : Building α (ForInStep PUnit)) F := by
  refine moves_check_bind fun parameters hf => (h.findMeasureEntry hf).bind fun _ =>
    (moves_keys _).bind fun keys => Moves.bind (.forIn (fun key _ => ?_) _) fun _ => .pure _
  exact (h.expression ref _).bind fun _ => .pure _

theorem measures (h : Expresses m R F) : Moves R (measures m) F :=
  Moves.bind (.forIn (fun ref _ => h.measureTurn ref) _) fun _ => .pure _

end Expresses

/-- Making an expression leaves the entries of constraints and evaluation equations alone. -/
structure Aside (t t' : Transcription α (Coordinate α)) : Prop where
  constraints : t'.constraints = t.constraints
  evaluations : t'.evaluations = t.evaluations

omit [Scalar α] in
instance : IsPreorder (Transcription α (Coordinate α)) Aside where
  refl _ := ⟨rfl, rfl⟩
  trans _ _ _ h h' :=
    ⟨h'.constraints.trans h.constraints, h'.evaluations.trans h.evaluations⟩

theorem expresses_aside (m : Model α) : Expresses m Aside fun _ _ => True where
  entry _ _ _ _ := ⟨rfl, rfl⟩
  append _ _ := ⟨rfl, rfl⟩
  measureEntry _ _ _ _ _ := ⟨rfl, rfl⟩
  record _ _ _ _ _ := Widens.record ⟨fun _ _ _ _ => ⟨rfl, rfl⟩, fun _ _ => ⟨rfl, rfl⟩⟩ m
    (fun _ _ _ => ⟨rfl, rfl⟩) (fun _ _ => ⟨rfl, rfl⟩) _ _ _ _ _ _ _

namespace Admits

variable {m : Model α}

theorem constraintAt (h : Admits m R F) {ref : Ref} (c : Constraint α) {parameters : List Ref}
    (own : m.parametersOf ref = .ok parameters) (key : List (Coordinate α)) :
    Moves R (constraintAt m ref c parameters key) F := by
  refine ⟨fun t => ?_⟩
  unfold Building.constraintAt
  rw [ends_bind, ends_get]
  dsimp only
  rw [ends_ite]
  refine ⟨fun _ => ?_, fun _ => (ends_pure _).2 (refl_of R t)⟩
  rw [ends_bind]
  -- once for the relation, once to know that the sum leaves the constraints alone
  refine (((h.combination _ _).ends t).and (((expresses_aside m).combination _ _).ends t)).mono ?_
    fun _ h' => h'.1
  rintro e t₁ ⟨h₁, haside⟩
  rw [ends_bind, ends_get, ends_bind, ends_appendConstraint, ends_bind]
  have h₂ := trans_of R h₁ (h.constraint t₁
    ⟨counterpartName t₁.verbose c.name key ((t.constraints.get? ref).getD { parameters }).size,
      { e with constant := 0 }, c.sense, c.rhs - e.constant⟩)
  refine ends_insert_new (fun hnew => ?_) (Absorbs.step h₂ (Absorbs.refl R _))
  rw [ends_modify]
  refine trans_of R h₂ (h.constraintEntry _ own ?_)
  rw [haside.constraints]
  exact .key _ hnew

theorem constraintTurn (h : Admits m R F) (ref : Ref) : Moves R (do
    let c ← check (m.constraint ref)
    let parameters ← check (m.parametersOf ref)
    modify fun t => { t with constraints := t.constraints.set ref { parameters } }
    for key in ← keys parameters do
      Building.constraintAt m ref c parameters key
    return ForInStep.yield PUnit.unit : Building α (ForInStep PUnit)) F := by
  refine moves_check_bind fun c _ => moves_check_bind fun parameters own =>
    Moves.bind (.modify fun t => h.constraintStart t own) fun _ => (moves_keys _).bind fun keys =>
      Moves.bind (.forIn (fun key _ => ?_) _) fun _ => .pure _
  exact (h.constraintAt c own key).bind fun _ => .pure _

theorem constraints (h : Admits m R F) : Moves R (constraints m) F :=
  Moves.bind (.forIn (fun ref _ => h.constraintTurn ref) _) fun _ => .pure _

theorem equationAt (h : Admits m R F) {ref : Ref} {d : Derivative} (own : m.derivative ref = .ok d)
    (e : Equation α) (others : List Ref) (rest : List (Coordinate α)) :
    Moves R (equationAt m ref d e others rest) F := by
  refine ⟨fun t => ?_⟩
  unfold Building.equationAt
  rw [ends_bind, ends_get]
  dsimp only
  rw [ends_bind, ends_check]
  refine ⟨fun key _ => ?_, fun _ _ => Absorbs.refl R t⟩
  rw [ends_ite]
  refine ⟨fun _ => ?_, fun _ => (ends_pure _).2 (refl_of R t)⟩
  -- the sum over the terms moves along every relation that expressions move along
  have terms : ∀ {R' F' : Transcription α (Coordinate α) → Transcription α (Coordinate α) → Prop}
      [IsPreorder (Transcription α (Coordinate α)) R'] [Absorbs R' F'], Expresses m R' F' →
      Moves R' (e.terms.foldlM (fun (sum : Expression α) term => do
        let part ← expression m term.ref ((d.parameter, { value := term.value }) :: others.zip rest)
        return sum.add part term.coefficient) .zero) F' := fun h' =>
    .foldlM (fun _ _ => (h'.expression _ _).bind fun _ => .pure _) _
  rw [ends_bind]
  -- once for the relation, once to know that the sum leaves the evaluations alone
  refine (((terms h.toExpresses).ends t).and ((terms (expresses_aside m)).ends t)).mono ?_
    fun _ h' => h'.1
  rintro sum t₁ ⟨h₁, haside⟩
  rw [ends_bind, ends_get, ends_bind, ends_appendConstraint, ends_bind]
  have h₂ := trans_of R h₁ (h.constraint t₁
    ⟨counterpartName t₁.verbose s!"{d.name}_eval" key
      ((t.evaluations.get? ref).getD { parameters := d.parameters }).size,
      { sum with constant := 0 }, .eq, 0 - sum.constant⟩)
  refine ends_insert_new (fun hnew => ?_) (Absorbs.step h₂ (Absorbs.refl R _))
  rw [ends_modify]
  refine trans_of R h₂ (h.evaluationEntry _ own ?_)
  rw [haside.evaluations]
  exact .key _ hnew

theorem evaluationTurn (h : Admits m R F) (ref : Ref) : Moves R (do
    let d ← check (m.derivative ref)
    match m.equations? ref.index with
    | none => throw (.noEquations d.name)
    | some equations =>
      let others := d.parameters.filter (· ≠ d.parameter)
      modify fun t =>
        { t with evaluations := t.evaluations.set ref { parameters := d.parameters } }
      for equation in equations do
        for values in ← keys others do
          Building.equationAt m ref d equation others values
      return ForInStep.yield PUnit.unit : Building α (ForInStep PUnit)) F := by
  refine moves_check_bind fun d own => ?_
  split
  · exact .throw _
  · rename_i equations _
    refine Moves.bind (.modify fun t => h.evaluationStart t own) fun _ =>
      Moves.bind (.forIn (fun equation _ => (moves_keys _).bind fun keys => ?_) _) fun _ => .pure _
    exact Moves.bind (.forIn (fun values _ => (h.equationAt own equation _ values).bind
      fun _ => .pure _) _) fun _ => .pure _

theorem evaluations (h : Admits m R F) : Moves R (evaluations m) F :=
  Moves.bind (.forIn (fun ref _ => h.evaluationTurn ref) _) fun _ => .pure _

/-- All passes keep to a relation that every change keeps to. -/
theorem run (h : Admits m R F) : Moves R (run m) F :=
  (h.vars m).bind fun _ => h.measures.bind fun _ => h.constraints.bind fun _ => h.evaluations

end Admits

end Relations

/-! ## Growth -/

variable [Scalar α]

theorem widens_grows : Widens (Grows (α := α) (κ := Coordinate α)) where
  entry _ _ _ _ :=
    ⟨rfl, rfl, Entries.isSome_get?_set _ _ _, fun _ h => h, fun _ h => h, fun _ h => h⟩
  append _ _ := ⟨rfl, rfl, fun _ h => h, fun _ h => h, fun _ h => h, fun _ h => h⟩

/-- Every change lets a transcription grow. -/
theorem admits_grows (m : Model α) : Admits m Grows Grows where
  toWidens := widens_grows
  constraintStart _ _ _ _ :=
    ⟨rfl, rfl, fun _ h => h, fun _ h => h, Entries.isSome_get?_set _ _ _, fun _ h => h⟩
  constraintEntry _ _ _ _ _ _ :=
    ⟨rfl, rfl, fun _ h => h, fun _ h => h, Entries.isSome_get?_set _ _ _, fun _ h => h⟩
  evaluationStart _ _ _ _ :=
    ⟨rfl, rfl, fun _ h => h, fun _ h => h, fun _ h => h, Entries.isSome_get?_set _ _ _⟩
  evaluationEntry _ _ _ _ _ _ :=
    ⟨rfl, rfl, fun _ h => h, fun _ h => h, fun _ h => h, Entries.isSome_get?_set _ _ _⟩
  constraint _ _ := ⟨rfl, rfl, fun _ h => h, fun _ h => h, fun _ h => h, fun _ h => h⟩
  measureEntry _ _ _ _ _ :=
    ⟨rfl, rfl, fun _ h => h, Entries.isSome_get?_set _ _ _, fun _ h => h, fun _ h => h⟩
  record _ _ _ _ _ := widens_grows.record m
    (fun _ _ _ =>
      ⟨rfl, rfl, fun _ h => h, Entries.isSome_get?_set _ _ _, fun _ h => h, fun _ h => h⟩)
    (fun _ _ => ⟨rfl, rfl, fun _ h => h, fun _ h => h, fun _ h => h, fun _ h => h⟩) _ _ _ _ _ _ _

/-! ## Every live object has an entry -/

section Entries

variable {t : Transcription α (Coordinate α)} {P : Transcription α (Coordinate α) → Prop}

omit [Scalar α] in
/-- What a step reaches is kept by what follows, if growing keeps it. -/
theorem ends_bind_of_grows {γ : Type} {x : Building α β} {f : β → Building α γ}
    (hP : ∀ t t', Grows t t' → P t → P t') (hx : Ends x t (fun _ t' => P t') fun _ => True)
    (hf : ∀ b, Moves Grows (f b)) : Ends (x >>= f) t (fun _ t' => P t') fun _ => True := by
  rw [ends_bind]
  refine hx.mono (fun b t' hp => ?_) fun _ h => h
  exact ((hf b).ends t').mono (fun _ t'' hg => hP t' t'' hg hp) fun _ _ => trivial

omit [Scalar α] in
/-- A loop over objects in which each turn reaches something for its object reaches it for all. -/
theorem ends_forIn_of_grows {xs : List Ref} {body : Ref → PUnit → Building α (ForInStep PUnit)}
    {Has : Ref → Transcription α (Coordinate α) → Prop}
    (hHas : ∀ ref t t', Grows t t' → Has ref t → Has ref t')
    (hmoves : ∀ ref b, Moves Grows (body ref b))
    (hbody : ∀ ref t, Ends (body ref ⟨⟩) t (fun r t' => r = .yield ⟨⟩ ∧ Has ref t') fun _ => True) :
    Ends (forIn xs PUnit.unit body) t (fun _ t' => ∀ ref ∈ xs, Has ref t') fun _ => True := by
  refine Ends.forIn (fun gone t' => ∀ ref ∈ gone, Has ref t') nofun ?_
  intro gone ref rest t₁ _ hgone
  refine ((hbody ref t₁).and ((hmoves ref ⟨⟩).ends t₁)).mono ?_ fun _ _ => trivial
  rintro r t₂ ⟨⟨hr, hhas⟩, hgrows⟩
  refine ⟨hr, fun ref' hmem => ?_⟩
  rcases List.mem_append.1 hmem with hmem | hmem
  · -- what earlier turns have reached stays, as each turn grows
    exact hHas ref' t₁ t₂ hgrows (hgone ref' hmem)
  · rw [List.mem_singleton.1 hmem]
    exact hhas

omit [Scalar α] in
theorem ends_variableEntry_isSome (ref : Ref) (parameters : List Ref) :
    Ends (variableEntry ref parameters) t (fun _ t' => (t'.vars.get? ref).isSome = true)
      fun _ => True :=
  ends_variableEntry_of (fun _ he => by rw [he]; rfl) fun _ => by rw [Entries.get?_set_self]; rfl

omit [Scalar α] in
theorem ends_measureEntry_isSome (ref : Ref) (parameters : List Ref) :
    Ends (measureEntry ref parameters) t (fun _ t' => (t'.measures.get? ref).isSome = true)
      fun _ => True :=
  ends_measureEntry_of (fun _ he => by rw [he]; rfl) fun _ => by rw [Entries.get?_set_self]; rfl

end Entries

/-- Every live object that is transcribed has an entry. -/
structure Complete {κ : Type} (m : Model α) (t : Transcription α κ) : Prop where
  single : ∀ kind ∈ [EntityKind.finiteVariable, .pointVariable], ∀ ref ∈ m.liveRefs kind,
    (t.vars.get? ref).isSome = true
  indexed : ∀ ref ∈ m.liveRefs .infiniteVariable ++ m.liveRefs .derivative,
    (t.vars.get? ref).isSome = true
  measures : ∀ ref ∈ m.liveRefs .measure, (t.measures.get? ref).isSome = true
  constraints : ∀ ref ∈ m.liveRefs .constraint, (t.constraints.get? ref).isSome = true
  evaluations : ∀ ref ∈ m.liveRefs .derivative, (t.evaluations.get? ref).isSome = true

omit [Scalar α] in
/-- Replacing the coordinates of keys keeps every entry. -/
theorem Complete.mapKeys {κ ι : Type} {m : Model α} {t : Transcription α κ} (h : Complete m t)
    (f : κ → ι) : Complete m (t.mapKeys f) where
  single kind hkind ref href := by
    rw [Transcription.mapKeys, Entries.get?_mapKeys, Option.isSome_map]
    exact h.single kind hkind ref href
  indexed ref href := by
    rw [Transcription.mapKeys, Entries.get?_mapKeys, Option.isSome_map]
    exact h.indexed ref href
  measures ref href := by
    rw [Transcription.mapKeys, Entries.get?_mapKeys, Option.isSome_map]
    exact h.measures ref href
  constraints ref href := by
    rw [Transcription.mapKeys, Entries.get?_mapKeys, Option.isSome_map]
    exact h.constraints ref href
  evaluations ref href := by
    rw [Transcription.mapKeys, Entries.get?_mapKeys, Option.isSome_map]
    exact h.evaluations ref href

omit [Scalar α] in
theorem Complete.of_liveRefs {κ : Type} {m m' : Model α} {t : Transcription α κ}
    (h : Complete m t) (hrefs : ∀ kind, m'.liveRefs kind = m.liveRefs kind) : Complete m' t where
  single kind hkind ref href := h.single kind hkind ref (hrefs kind ▸ href)
  indexed ref href := h.indexed ref (by rwa [hrefs, hrefs] at href)
  measures ref href := h.measures ref (hrefs _ ▸ href)
  constraints ref href := h.constraints ref (hrefs _ ▸ href)
  evaluations ref href := h.evaluations ref (hrefs _ ▸ href)

section Passes

variable {t : Transcription α (Coordinate α)} {refs : List Ref}

theorem ends_singleLoop (m : Model α) :
    Ends (forIn refs PUnit.unit fun ref _ => do
        let _ ← singleVariable m ref
        return ForInStep.yield PUnit.unit) t
      (fun _ t' => ∀ ref ∈ refs, (t'.vars.get? ref).isSome = true) fun _ => True := by
  refine ends_forIn_of_grows (fun ref t t' hg h => hg.vars ref h)
    (fun ref _ => widens_grows.singleTurn m ref) fun ref t => ?_
  rw [ends_bind]
  refine (ends_bind_of_grows (fun _ _ hg h => hg.vars ref h) (ends_variableEntry_isSome ref [])
    fun entry => ?_).mono (fun _ t' h => (ends_pure _).2 ⟨rfl, h⟩) fun _ h => h
  exact widens_grows.singleRest m ref entry

theorem ends_indexedLoop (m : Model α) :
    Ends (forIn refs PUnit.unit fun ref _ => do
        let (_, parameters) ← check (m.indexed ref)
        let _ ← variableEntry ref parameters
        for key in ← keys parameters do
          let _ ← variableAt m ref key
        return ForInStep.yield PUnit.unit) t
      (fun _ t' => ∀ ref ∈ refs, (t'.vars.get? ref).isSome = true) fun _ => True := by
  refine ends_forIn_of_grows (fun ref t t' hg h => hg.vars ref h)
    (fun ref _ => widens_grows.indexedTurn m ref) fun ref t => ?_
  -- the entry is there after the first action of the turn, and the others grow
  rw [ends_bind, ends_check]
  refine ⟨fun (_, parameters) _ => ?_, fun _ _ => trivial⟩
  rw [ends_bind]
  refine (ends_variableEntry_isSome ref parameters).mono (fun _ t₁ h₁ => ?_) fun _ h => h
  rw [ends_bind]
  refine ((moves_keys (R := Grows) (F := Grows) parameters).ends t₁).mono (fun keys t₂ h₂ => ?_)
    fun _ _ => trivial
  rw [ends_bind]
  refine ((Moves.forIn (R := Grows) (F := Grows)
    (fun key _ => (widens_grows.variableAt m ref key).bind fun _ => .pure _) _).ends t₂).mono
      (fun _ t₃ h₃ => ?_) fun _ _ => trivial
  exact (ends_pure _).2 ⟨rfl, h₃.vars ref (h₂.vars ref h₁)⟩

theorem ends_measureLoop (m : Model α) :
    Ends (measures m) t
      (fun _ t' => ∀ ref ∈ m.liveRefs .measure, (t'.measures.get? ref).isSome = true)
      fun _ => True := by
  unfold measures
  rw [ends_bind]
  refine (ends_forIn_of_grows (fun ref t t' hg h => hg.measures ref h)
    (fun ref _ => (admits_grows m).measureTurn ref) fun ref t => ?_).mono
    (fun _ _ h => (ends_pure _).2 h) fun _ h => h
  rw [ends_bind, ends_check]
  refine ⟨fun parameters _ => ?_, fun _ _ => trivial⟩
  rw [ends_bind]
  refine (ends_measureEntry_isSome ref parameters).mono (fun _ t₁ h₁ => ?_) fun _ h => h
  rw [ends_bind]
  refine ((moves_keys (R := Grows) (F := Grows) parameters).ends t₁).mono (fun keys t₂ h₂ => ?_)
    fun _ _ => trivial
  rw [ends_bind]
  refine ((Moves.forIn (R := Grows) (F := Grows)
    (fun key _ => ((admits_grows m).expression ref _).bind fun _ => .pure _) _).ends t₂).mono
      (fun _ t₃ h₃ => ?_) fun _ _ => trivial
  exact (ends_pure _).2 ⟨rfl, h₃.measures ref (h₂.measures ref h₁)⟩

theorem ends_constraintLoop (m : Model α) :
    Ends (constraints m) t
      (fun _ t' => ∀ ref ∈ m.liveRefs .constraint, (t'.constraints.get? ref).isSome = true)
      fun _ => True := by
  unfold constraints
  rw [ends_bind]
  refine (ends_forIn_of_grows (fun ref t t' hg h => hg.constraints ref h)
    (fun ref _ => (admits_grows m).constraintTurn ref) fun ref t => ?_).mono
    (fun _ _ h => (ends_pure _).2 h) fun _ h => h
  rw [ends_bind, ends_check]
  refine ⟨fun c _ => ?_, fun _ _ => trivial⟩
  rw [ends_bind, ends_check]
  refine ⟨fun parameters own => ?_, fun _ _ => trivial⟩
  rw [ends_bind, ends_modify, ends_bind]
  refine ((moves_keys (R := Grows) (F := Grows) parameters).ends _).mono (fun keys t₂ h₂ => ?_)
    fun _ _ => trivial
  rw [ends_bind]
  refine ((Moves.forIn (R := Grows) (F := Grows)
    (fun key _ => ((admits_grows m).constraintAt c own key).bind fun _ => .pure _)
      _).ends t₂).mono (fun _ t₃ h₃ => ?_) fun _ _ => trivial
  refine (ends_pure _).2 ⟨rfl, h₃.constraints ref (h₂.constraints ref ?_)⟩
  rw [Entries.get?_set_self]
  rfl

theorem ends_evaluationLoop (m : Model α) :
    Ends (evaluations m) t
      (fun _ t' => ∀ ref ∈ m.liveRefs .derivative, (t'.evaluations.get? ref).isSome = true)
      fun _ => True := by
  unfold evaluations
  rw [ends_bind]
  refine (ends_forIn_of_grows (fun ref t t' hg h => hg.evaluations ref h)
    (fun ref _ => (admits_grows m).evaluationTurn ref) fun ref t => ?_).mono
    (fun _ _ h => (ends_pure _).2 h) fun _ h => h
  rw [ends_bind, ends_check]
  refine ⟨fun d own => ?_, fun _ _ => trivial⟩
  split
  · -- without equations the transcription fails
    rw [ends_throw]
    trivial
  · rename_i equations _
    dsimp only
    rw [ends_bind, ends_modify, ends_bind]
    refine ((Moves.forIn (R := Grows) (F := Grows)
      (fun equation _ => (moves_keys _).bind fun keys =>
        Moves.bind (.forIn (fun values _ => ((admits_grows m).equationAt own equation _ values).bind
          fun _ => .pure _) _) fun _ => .pure _) _).ends _).mono (fun _ t₂ h₂ => ?_)
      fun _ _ => trivial
    refine (ends_pure _).2 ⟨rfl, h₂.evaluations ref ?_⟩
    rw [Entries.get?_set_self]
    rfl

end Passes

theorem ends_varsLoop (m : Model α) (t : Transcription α (Coordinate α)) :
    Ends (vars m) t
      (fun _ t' => ∀ ref, ref ∈ m.liveRefs .finiteVariable ∨
        ref ∈ m.liveRefs .infiniteVariable ++ m.liveRefs .derivative ∨
        ref ∈ m.liveRefs .pointVariable → (t'.vars.get? ref).isSome = true)
      fun _ => True := by
  unfold vars
  simp only [ends_bind, ends_pure]
  refine (ends_singleLoop m).mono (fun _ t₁ hfinite => ?_) fun _ h => h
  refine ((ends_indexedLoop m).and ((Moves.forIn (R := Grows) (F := Grows)
    (fun ref _ => widens_grows.indexedTurn m ref) _).ends t₁)).mono ?_ fun _ _ => trivial
  rintro _ t₂ ⟨hindexed, hg₂⟩
  refine ((ends_singleLoop m).and ((Moves.forIn (R := Grows) (F := Grows)
    (fun ref _ => widens_grows.singleTurn m ref) _).ends t₂)).mono ?_ fun _ _ => trivial
  rintro _ t₃ ⟨hpoint, hg₃⟩ ref (href | href | href)
  · exact hg₃.vars ref (hg₂.vars ref (hfinite ref href))
  · exact hg₃.vars ref (hindexed ref href)
  · exact hpoint ref href

/-- A successful transcription is complete. -/
theorem ends_run (m : Model α) (t : Transcription α (Coordinate α)) :
    Ends (run m) t (fun _ t' => Complete m t') fun _ => True := by
  unfold run
  rw [ends_bind]
  refine (ends_varsLoop m t).mono (fun _ t₁ hvars => ?_) fun _ h => h
  rw [ends_bind]
  refine ((ends_measureLoop m).and ((admits_grows m).measures.ends t₁)).mono ?_ fun _ _ => trivial
  rintro _ t₂ ⟨hmeasures, hg₂⟩
  rw [ends_bind]
  refine ((ends_constraintLoop m).and ((admits_grows m).constraints.ends t₂)).mono ?_
    fun _ _ => trivial
  rintro _ t₃ ⟨hconstraints, hg₃⟩
  refine ((ends_evaluationLoop m).and ((admits_grows m).evaluations.ends t₃)).mono ?_
    fun _ _ => trivial
  rintro _ t₄ ⟨hevaluations, hg₄⟩
  -- the entries of the first loop outlive the three that follow
  have hkept : ∀ ref, (t₁.vars.get? ref).isSome = true → (t₄.vars.get? ref).isSome = true :=
    fun ref h => hg₄.vars ref (hg₃.vars ref (hg₂.vars ref h))
  refine ⟨fun kind hkind ref href => hkept ref (hvars ref ?_),
    fun ref href => hkept ref (hvars ref (.inr (.inl href))),
    fun ref href => hg₄.measures ref (hg₃.measures ref (hmeasures ref href)),
    fun ref href => hg₄.constraints ref (hconstraints ref href), hevaluations⟩
  simp only [List.mem_cons, List.not_mem_nil, or_false] at hkind
  rcases hkind with rfl | rfl
  · exact .inl href
  · exact .inr (.inr href)

end Building

namespace Model

variable {α : Type} [Scalar α] {m : Model α} {verbose : Bool} {t : Transcription α}

omit [Scalar α] in
/-- The transcription that a model starts with. -/
def blank (m : Model α) (verbose : Bool) : Transcription α (Coordinate α) :=
  { finite := { name := m.name ++ "_transcription" }, verbose, snapshot := m.snapshot }

theorem transcribe_eq_ok : m.transcribe verbose = .ok t ↔
    ∃ t', Building.run m (m.blank verbose) = .ok () t' ∧ t = t'.mapKeys (·.value) := by
  rw [transcribe, EStateM.run, blank]
  constructor
  · intro h
    split at h
    · rename_i t' hrun
      cases h
      exact ⟨t', hrun, rfl⟩
    · cases h
  · rintro ⟨t', hrun, rfl⟩
    rw [hrun]

/-- Every live object of a transcribed model has an entry. -/
theorem complete_of_transcribe (h : m.transcribe verbose = .ok t) : Building.Complete m t := by
  obtain ⟨t', hrun, rfl⟩ := transcribe_eq_ok.1 h
  exact ((Building.ends_run m (m.blank verbose)).of_ok hrun).mapKeys _

/-- A transcription has the naming that was asked for and the supports of the model. -/
theorem grows_of_transcribe (h : m.transcribe verbose = .ok t) :
    t.verbose = verbose ∧ t.snapshot = m.snapshot := by
  obtain ⟨t', hrun, rfl⟩ := transcribe_eq_ok.1 h
  have hg := ((Building.admits_grows m).run.ends (m.blank verbose)).of_ok hrun
  exact ⟨hg.verbose, hg.snapshot⟩

end Model

end Discretization
