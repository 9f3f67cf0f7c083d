import Discretization.Proofs.Expressions
import Discretization.Proofs.Histories

/-!
# Reduced Variables

A measure that fixes some but not all parameters of an infinite variable or derivative makes
reduced variables, one for each of its points. A reduced variable is recorded unless one of the same
variable with the same list of values is there: the list does not say which parameters the values
belong to. So what is recorded is complete and free of repetitions as far as values tell, and it is
so for the fixed values of parameters where equal lists of values mean equal values of the same
parameters, as for measures that list the parameters they fix in one order.

## Main definitions

* `Model.Reduces`: a measure fixes some parameters of a variable at the given values;
* `Building.Recorded`: reduced variables come from measures, differ from each other, and are there
  for every measure whose expression was made;
* `Model.TellsApart`: lists of values tell reduced variables apart.

## Main results

* `recorded_of_build`: what a build records, as far as values tell;
* `reduced_of_build`: where values tell reduced variables apart, those recorded are complete and no
  two are the same.
-/

namespace Discretization

variable {α : Type} [Scalar α]

/-! ## What measures reduce -/

omit [Scalar α] in
/-- The parameters of a variable among the measured ones, with their values at a point. -/
def fixedAt (measured parameters : List Ref) (point : List α) : List (Ref × α) :=
  (measured.zip point).filter fun (p, _) => p ∈ parameters

/-- At one of its points a measure fixes some but not all parameters of an infinite variable or
derivative. -/
inductive Model.Reduces (m : Model α) (ref : Ref) : Ref → List (Ref × α) → Prop where
  | atPoint {μ : Measure α} {name : String} {parameters : List Ref} {points : List (List α)}
      {point : List α} (measure : m.measure ref = .ok μ)
      (kind : μ.function.kind.isInfiniteVariable = true)
      (indexed : m.indexed μ.function = .ok (name, parameters))
      (some : ∃ p ∈ μ.data.parameters, p ∈ parameters)
      (left : ∃ p ∈ parameters, p ∉ μ.data.parameters)
      (rounded : Building.roundedPoints m μ.data = .ok points) (mem : point ∈ points) :
      m.Reduces ref μ.function (fixedAt μ.data.parameters parameters point)

/-- What a measure reduces has the parameters of its variable fixed at one of its points. -/
theorem Model.Reduces.exists_point {m : Model α} {ref v : Ref} {fixed : List (Ref × α)}
    (h : m.Reduces ref v fixed) : ∃ μ name parameters points point, m.measure ref = .ok μ ∧
      v = μ.function ∧ m.indexed v = .ok (name, parameters) ∧
      Building.roundedPoints m μ.data = .ok points ∧ point ∈ points ∧
      fixed = fixedAt μ.data.parameters parameters point := by
  cases h with
  | @atPoint μ name parameters points point measure _ indexed _ _ rounded mem =>
    exact ⟨μ, name, parameters, points, point, measure, rfl, indexed, rounded, mem, rfl⟩

/-- The rounded points of all measures are defined. -/
def Model.PointsDefined (m : Model α) : Prop :=
  ∀ ref μ points, m.measure ref = .ok μ → Building.roundedPoints m μ.data = .ok points →
    ∀ point ∈ points, ∀ x ∈ point, Scalar.Defined x

theorem Model.Reduces.defined {m : Model α} (hdef : m.PointsDefined) {ref v : Ref}
    {fixed : List (Ref × α)} (h : m.Reduces ref v fixed) :
    ∀ x ∈ fixed.map (·.2), Scalar.Defined x := by
  cases h with
  | atPoint measure _ _ _ _ rounded mem =>
    intro x hx
    obtain ⟨⟨p, y⟩, hpair, rfl⟩ := List.mem_map.1 hx
    exact hdef ref _ _ measure rounded _ mem y (List.of_mem_zip (List.mem_filter.1 hpair).1).2

omit [Scalar α] in
theorem Scalar.beq_self_of_defined [Scalar α] {xs : List α} (h : ∀ x ∈ xs, Scalar.Defined x) :
    (xs == xs) = true := by
  induction xs with
  | nil => rfl
  | cons x rest ih =>
    rw [List.cons_beq_cons, h x List.mem_cons_self, ih fun y hy => h y (List.mem_cons_of_mem x hy),
      Bool.true_and]

namespace Building

open Transcription

variable {κ : Type} {m : Model α} {ref v : Ref} {fixed : List (Ref × α)}
  {reduced : List (ReducedVariable α κ)} {r : ReducedVariable α κ}

/-! ## Recorded variables -/

/-- A reduced variable is recorded as far as values tell. -/
def Recalls (reduced : List (ReducedVariable α κ)) (v : Ref) (fixed : List (Ref × α)) : Prop :=
  ∃ r ∈ reduced, r.ref = v ∧ (r.values == fixed.map (·.2)) = true

/-- Reduced variables come from measures, and values tell each two of one variable apart. -/
structure Distinct (m : Model α) (reduced : List (ReducedVariable α κ)) : Prop where
  origin : ∀ r ∈ reduced, ∃ ref, m.Reduces ref r.ref r.fixed
  unique : reduced.Pairwise fun r r' => r.ref = r'.ref → (r.values == r'.values) = false

/-- What a transcription has recorded is distinct and has what any measure reduces whose expression
was made at some key. -/
structure Recorded (m : Model α) (t : Transcription α κ) : Prop extends Distinct m t.reduced where
  complete : ∀ ref e, t.measures.get? ref = some e → e.rows ≠ [] →
    ∀ v fixed, m.Reduces ref v fixed → Recalls t.reduced v fixed

theorem Recalls.mono {reduced' : List (ReducedVariable α κ)} (h : Recalls reduced v fixed)
    (hsub : reduced ⊆ reduced') : Recalls reduced' v fixed := by
  obtain ⟨r, hr, hsame⟩ := h
  exact ⟨r, hsub hr, hsame⟩

theorem Distinct.snoc (h : Distinct m reduced) (hr : m.Reduces ref r.ref r.fixed)
    (hnew : ¬ Recalls reduced r.ref r.fixed) : Distinct m (reduced ++ [r]) where
  origin r' hr' := by
    rcases List.mem_append.1 hr' with hr' | hr'
    · exact h.origin r' hr'
    · rw [List.mem_singleton.1 hr']
      exact ⟨ref, hr⟩
  unique := by
    refine List.pairwise_append.2
      ⟨h.unique, List.pairwise_singleton _ _, fun r' hr' s hs href => ?_⟩
    rw [List.mem_singleton.1 hs] at href ⊢
    exact Bool.eq_false_iff.2 fun hvalues => hnew ⟨r', hr', href, hvalues⟩

section Steps

variable {t t' : Transcription α (Coordinate α)}

/-- Neither remembered expressions nor reduced variables change. -/
structure Quiet (t t' : Transcription α (Coordinate α)) : Prop where
  measures : t'.measures = t.measures
  reduced : t'.reduced = t.reduced

instance : IsPreorder (Transcription α (Coordinate α)) Quiet where
  refl _ := ⟨rfl, rfl⟩
  trans _ _ _ h h' := ⟨h'.measures.trans h.measures, h'.reduced.trans h.reduced⟩

theorem widens_quiet : Widens (Quiet (α := α)) where
  entry _ _ _ _ := ⟨rfl, rfl⟩
  append _ _ := ⟨rfl, rfl⟩

theorem Recorded.of_quiet (h : Recorded m t) (hq : Quiet t t') : Recorded m t' where
  origin := by rw [hq.reduced]; exact h.origin
  unique := by rw [hq.reduced]; exact h.unique
  complete ref e he := by rw [hq.reduced]; exact h.complete ref e (hq.measures ▸ he)

/-- What a measure reduces, it reduces at its points. -/
theorem exists_of_reduces {μ : Measure α} {points : List (List α)} (hμ : m.measure ref = .ok μ)
    (hpoints : roundedPoints m μ.data = .ok points) (h : m.Reduces ref v fixed) :
    v = μ.function ∧ μ.function.kind.isInfiniteVariable = true ∧ ∃ name parameters,
      m.indexed μ.function = .ok (name, parameters) ∧ (∃ p ∈ μ.data.parameters, p ∈ parameters) ∧
      (∃ p ∈ parameters, p ∉ μ.data.parameters) ∧
      ∃ point ∈ points, fixed = fixedAt μ.data.parameters parameters point := by
  cases h with
  | @atPoint μ' name parameters _ point measure kind indexed some left rounded mem =>
    rw [hμ] at measure
    cases measure
    rw [hpoints] at rounded
    cases rounded
    exact ⟨rfl, kind, name, parameters, indexed, some, left, point, mem, rfl⟩

/-- Where a reduced variable with the same values is there, it is left alone; else its counterparts
are made, which does not touch those that are recorded, and it is recorded. -/
theorem ends_recordPoint (hdef : m.PointsDefined) (ht : Distinct m t.reduced) {function : Ref}
    {measured parameters remaining : List Ref} {point : List α}
    (hr : m.Reduces ref function (fixedAt measured parameters point)) :
    Ends (do
        let fixed := fixedAt measured parameters point
        let values := fixed.map (·.2)
        unless (← get).reduced.any fun r => r.ref = function && r.values == values do
          let keys ← keys remaining
          let rows ← keys.mapM fun key => do
            let point := Point.override (remaining.zip key) measured (Coordinate.ofValues point)
            return (key, ← variableAt m function (← check (point.key parameters)))
          let entry ← rows.foldlM (fun entry (key, position) => insert entry key position)
            { parameters := remaining }
          modify fun t => { t with reduced := t.reduced ++ [{ ref := function, fixed, entry }] }
        return ForInStep.yield PUnit.unit : Building α (ForInStep PUnit)) t
      (fun step t' => step = .yield ⟨⟩ ∧ t'.measures = t.measures ∧ t.reduced ⊆ t'.reduced ∧
        Distinct m t'.reduced ∧ Recalls t'.reduced function (fixedAt measured parameters point))
      fun _ => True := by
  dsimp only
  rw [ends_bind, ends_get]
  split
  · rename_i hany
    obtain ⟨r, hr, hsame⟩ := List.any_eq_true.1 hany
    rw [Bool.and_eq_true, decide_eq_true_eq] at hsame
    exact (ends_pure _).2 ⟨rfl, rfl, List.Subset.refl _, ht, r, hr, hsame⟩
  · rename_i hnone
    -- the list is searched before the counterparts are made: making them only adds finite
    -- variables, so what was not found then is still not there when the reduced variable is
    -- recorded
    have hnew : ¬ Recalls t.reduced function (fixedAt measured parameters point) := by
      rintro ⟨r, hr, href, hvalues⟩
      exact hnone (List.any_eq_true.2 ⟨r, hr, by simp [href, hvalues]⟩)
    rw [ends_bind]
    refine ((moves_keys (R := Quiet) (F := fun _ _ => True) remaining).ends t).mono ?_
      fun _ h => h
    intro keys t₁ h₁
    rw [ends_bind]
    refine ((Moves.mapM (R := Quiet) (F := fun _ _ => True) (fun key => moves_check_bind fun _ _ =>
      (widens_quiet.variableAt m _ _).bind fun _ => .pure _)).ends t₁).mono ?_ fun _ h => h
    intro rows t₂ h₂
    rw [ends_bind]
    refine ((Moves.foldlM (R := Quiet) (F := fun _ _ => True)
      (fun _ _ => moves_insert _ _ _) _).ends t₂).mono ?_ fun _ h => h
    intro entry t₃ h₃
    have hquiet : Quiet t t₃ := trans_of _ h₁ (trans_of _ h₂ h₃)
    rw [ends_bind, ends_modify, ends_pure, hquiet.reduced]
    refine ⟨rfl, hquiet.measures, List.subset_append_left _ _, ht.snoc hr hnew, _,
      List.mem_append_right _ (List.mem_singleton_self _), rfl, ?_⟩
    -- a list of values finds itself only if none of them is undefined
    exact Scalar.beq_self_of_defined (hr.defined hdef)

/-- Reducing the variable of a measure records what the measure reduces. -/
theorem ends_reduce_recorded (hdef : m.PointsDefined) (ht : Distinct m t.reduced) {μ : Measure α}
    {points : List (List α)} (hμ : m.measure ref = .ok μ)
    (hpoints : roundedPoints m μ.data = .ok points) :
    Ends (reduce m μ.function μ.data.parameters points) t
      (fun _ t' => t'.measures = t.measures ∧ t.reduced ⊆ t'.reduced ∧ Distinct m t'.reduced ∧
        ∀ v fixed, m.Reduces ref v fixed → Recalls t'.reduced v fixed) fun _ => True := by
  -- a function that is no infinite variable, or has none or all of its parameters measured
  have nothing : (∀ v fixed, ¬ m.Reduces ref v fixed) → t.measures = t.measures ∧
      t.reduced ⊆ t.reduced ∧ Distinct m t.reduced ∧
        ∀ v fixed, m.Reduces ref v fixed → Recalls t.reduced v fixed := fun hnone =>
    ⟨rfl, List.Subset.refl _, ht, fun v fixed h => absurd h (hnone v fixed)⟩
  unfold reduce
  rw [ends_ite]
  refine ⟨fun hkind => ?_, fun hkind => (ends_pure _).2 (nothing fun v fixed h =>
    hkind (exists_of_reduces hμ hpoints h).2.1)⟩
  rw [ends_bind, ends_check]
  refine ⟨fun ⟨name, parameters⟩ hindexed => ?_, fun _ _ => trivial⟩
  have hpartial : (μ.data.parameters.any (· ∈ parameters) &&
      !(parameters.filter (· ∉ μ.data.parameters)).isEmpty) = true ↔
      (∃ p ∈ μ.data.parameters, p ∈ parameters) ∧ ∃ p ∈ parameters, p ∉ μ.data.parameters := by
    simp
  dsimp only
  rw [ends_ite, hpartial]
  refine ⟨fun ⟨hsome, hleft⟩ => ?_, fun hnot => (ends_pure _).2 (nothing fun v fixed h => hnot ?_)⟩
  · rw [ends_bind]
    -- over the points: those passed are recorded, and nothing recorded goes away
    refine (Ends.forIn (fun gone t' => t'.measures = t.measures ∧ t.reduced ⊆ t'.reduced ∧
      Distinct m t'.reduced ∧ ∀ point ∈ gone, Recalls t'.reduced μ.function
        (fixedAt μ.data.parameters parameters point))
      ⟨rfl, List.Subset.refl _, ht, nofun⟩ ?_).mono ?_ fun _ h => h
    · rintro gone point rest t₁ hsplit ⟨hmeasures, hsub, ht₁, hgone⟩
      have hr : m.Reduces ref μ.function (fixedAt μ.data.parameters parameters point) :=
        .atPoint hμ hkind hindexed hsome hleft hpoints (by simp [hsplit])
      refine (ends_recordPoint hdef ht₁ hr).mono ?_ fun _ h => h
      rintro step t₂ ⟨hstep, hmeasures₂, hsub₂, ht₂, hrecalls⟩
      refine ⟨hstep, hmeasures₂.trans hmeasures, List.Subset.trans hsub hsub₂, ht₂, fun x hx => ?_⟩
      rcases List.mem_append.1 hx with hx | hx
      · exact (hgone x hx).mono hsub₂
      · rwa [List.mem_singleton.1 hx]
    · rintro _ t₁ ⟨hmeasures, hsub, ht₁, hall⟩
      refine (ends_pure _).2 ⟨hmeasures, hsub, ht₁, fun v fixed h => ?_⟩
      obtain ⟨rfl, -, name', parameters', hindexed', -, -, point, hpoint, rfl⟩ :=
        exists_of_reduces hμ hpoints h
      rw [hindexed] at hindexed'
      cases hindexed'
      exact hall point hpoint
  · obtain ⟨-, -, name', parameters', hindexed', hsome, hleft, -⟩ :=
      exists_of_reduces hμ hpoints h
    rw [hindexed] at hindexed'
    cases hindexed'
    exact ⟨hsome, hleft⟩

/-- What is recorded stays as it has to be. -/
def KeepsRecorded (m : Model α) (t t' : Transcription α (Coordinate α)) : Prop :=
  Recorded m t → Recorded m t'

instance : IsPreorder (Transcription α (Coordinate α)) (KeepsRecorded m) where
  refl _ := id
  trans _ _ _ h h' := h' ∘ h

/-- An entry of a measure can be set if it has no keys or what the measure reduces is recorded. -/
theorem Recorded.set (h : Recorded m t) {e : Entry (Coordinate α) (Expression α)}
    (hmeasures : t'.measures = t.measures.set ref e) (hreduced : t.reduced ⊆ t'.reduced)
    (hdistinct : Distinct m t'.reduced)
    (he : e.rows ≠ [] → ∀ v fixed, m.Reduces ref v fixed → Recalls t'.reduced v fixed) :
    Recorded m t' where
  toDistinct := hdistinct
  complete ref' e' he' hrows v fixed hv := by
    rw [hmeasures, Entries.get?_set] at he'
    split at he'
    · rename_i href
      cases he'
      exact he hrows v fixed (href ▸ hv)
    · exact (h.complete ref' e' he' hrows v fixed hv).mono hreduced

theorem Recorded.setEmpty (h : Recorded m t) (ref : Ref) (parameters : List Ref) :
    Recorded m { t with measures := t.measures.set ref { parameters } } :=
  h.set rfl (List.Subset.refl _) h.toDistinct fun hne => absurd rfl hne

theorem ends_measureEntry_recorded (h : Recorded m t) (ref : Ref) (parameters : List Ref) :
    Ends (measureEntry ref parameters) t (fun _ t' => Recorded m t') fun _ => True :=
  ends_measureEntry_of (fun _ _ => h) fun _ => h.setEmpty ref parameters

/-- The expression of a measure is remembered together with what the measure reduces. -/
theorem ends_record_recorded (hdef : m.PointsDefined) (h : Recorded m t) {μ : Measure α}
    {points : List (List α)} (hμ : m.measure ref = .ok μ)
    (hpoints : roundedPoints m μ.data = .ok points) (parameters : List Ref)
    (key : List (Coordinate α)) (result : Expression α) :
    Ends (do
        let entry ← measureEntry ref parameters
        let entry ← insert entry key result
        modify fun t => { t with measures := t.measures.set ref entry }
        reduce m μ.function μ.data.parameters points
        return result) t (fun _ t' => Recorded m t') fun _ => True := by
  rw [ends_bind]
  refine (ends_measureEntry_recorded h ref parameters).mono ?_ fun _ h => h
  intro e t₁ h₁
  rw [ends_bind]
  refine ends_insert_of ?_ trivial
  rw [ends_bind, ends_modify, ends_bind]
  -- the expression is remembered first, so the entry is complete only once `reduce` has ended
  let e' : Entry (Coordinate α) (Expression α) :=
    { e with rows := e.rows ++ [(key, result)], memo := [] }
  refine (ends_reduce_recorded (t := { t₁ with measures := t₁.measures.set ref e' }) hdef
    h₁.toDistinct hμ hpoints).mono ?_ fun _ h => h
  rintro _ t₂ ⟨hmeasures, hsub, hdistinct, hall⟩
  exact (ends_pure _).2 (h₁.set hmeasures hsub hdistinct fun _ => hall)

/-- Every change on the way to a transcription keeps what is recorded as it has to be. -/
theorem admits_keepsRecorded (hdef : m.PointsDefined) :
    Admits m (KeepsRecorded m) fun _ _ => True where
  entry _ _ _ _ h := h.of_quiet ⟨rfl, rfl⟩
  append _ _ h := h.of_quiet ⟨rfl, rfl⟩
  constraintStart _ _ _ _ h := h.of_quiet ⟨rfl, rfl⟩
  constraintEntry _ _ _ _ _ _ h := h.of_quiet ⟨rfl, rfl⟩
  evaluationStart _ _ _ _ h := h.of_quiet ⟨rfl, rfl⟩
  evaluationEntry _ _ _ _ _ _ h := h.of_quiet ⟨rfl, rfl⟩
  constraint _ _ h := h.of_quiet ⟨rfl, rfl⟩
  measureEntry _ ref parameters _ _ h := h.setEmpty ref parameters
  record hμ hpoints _ key result := Moves.of_keeps_ok fun _ h =>
    ends_record_recorded hdef h hμ hpoints _ key result

end Steps

theorem Recorded.mapKeys {ι : Type} {t : Transcription α κ} (h : Recorded m t) (f : κ → ι) :
    Recorded m (t.mapKeys f) where
  origin r hr := by
    obtain ⟨r', hr', rfl⟩ := List.mem_map.1 hr
    exact h.origin r' hr'
  unique := List.pairwise_map.2 h.unique
  complete ref e he hrows v fixed hv := by
    rw [Transcription.mapKeys, Entries.get?_mapKeys, Option.map_eq_some_iff] at he
    obtain ⟨e, he, rfl⟩ := he
    have hrows : e.rows ≠ [] := fun hnil => hrows (by rw [Entry.mapKeys, hnil, List.map_nil])
    obtain ⟨r, hr, hsame⟩ := h.complete ref e he hrows v fixed hv
    exact ⟨r.mapKeys f, List.mem_map_of_mem hr, hsame⟩

/-- A transcription has recorded what it has to. -/
theorem recorded_of_transcribe (hdef : m.PointsDefined) {verbose : Bool} {t : Transcription α}
    (h : m.transcribe verbose = .ok t) : Recorded m t := by
  obtain ⟨t', hrun, rfl⟩ := Model.transcribe_eq_ok.1 h
  have hblank : Recorded m (m.blank verbose) := ⟨⟨nofun, .nil⟩, nofun⟩
  exact ((((admits_keepsRecorded hdef).run).ends _).of_ok hrun hblank).mapKeys _

end Building

/-! ## Points are defined once supports are restored -/

section Preparation

open Operation Workspace Store Transcription

variable {m : Model α} {w w' : Workspace α}

/-- The rounded values are defined. -/
def DefinedRow (m : Model α) (p : Ref) (row : List α) : Prop :=
  ∀ q, m.parameter (.given p) = .ok q → ∀ x ∈ row, ∀ rounded, roundTo q.digits x = .ok rounded →
    Scalar.Defined rounded

/-- The rounded supports of a measure are defined. -/
def DefinedMeasure (m : Model α) (ref : Ref) : Prop :=
  ∀ μ, m.measure ref = .ok μ → ∀ pair ∈ μ.data.parameters.zip μ.data.supports,
    DefinedRow m pair.1 pair.2

theorem DefinedRow.keeps {p : Ref} {row : List α} (h : DefinedRow w.model p row)
    (hk : w.Keeps w') : DefinedRow w'.model p row := by
  intro q' hq' x hx rounded hr
  obtain ⟨q, hq⟩ := hk.objects.symm.parameter hq'
  obtain ⟨q₁, hq₁, hdigits, -, -⟩ := hk.parameter p q hq
  rw [hq'] at hq₁
  cases hq₁
  exact h q hq x hx rounded (hdigits ▸ hr)

theorem DefinedMeasure.keeps {ref : Ref} (h : DefinedMeasure w.model ref) (hk : w.Keeps w') :
    DefinedMeasure w'.model ref := fun μ hμ pair hpair =>
  (h μ (hk.objects.measure.1 hμ) pair hpair).keeps hk

theorem keeps_evaluate (d : Ref) : Moves Keeps (Evaluation.evaluate (α := α) d) := by
  refine (moves_query _).bind fun derivative => moves_model.bind fun m => ?_
  split
  · exact .pure _
  · refine (moves_query _).bind fun object =>
      ((moves_addGenerative object.parameter).mono fun _ _ h => h.keeps).bind fun _ =>
        (moves_query _).bind fun q => (moves_check _).bind fun equations =>
          Moves.bind ⟨fun w => (ends_modifyModel _).2 ?_⟩ fun _ => .pure _
    -- stored equations are outside of what `Keeps` looks at
    have hstored := Evaluation.evaluates_storeEquations (w := w) (n := derivative.index.toNat)
      equations object.parameter
    refine ⟨hstored.objects, fun p q hq => ?_, refl_of _ w.environment⟩
    obtain ⟨stored, hq'⟩ := hstored.parameters p q hq
    exact ⟨_, hq', rfl, rfl, rfl⟩

section Lawful

variable [LawfulScalar α]

/-- Values that were stored within bounds are defined. -/
theorem ends_add_definedRow (p : Ref) (row : List α) (label : Argument Label) :
    Ends (add p row label true) w (fun _ w' => w.Keeps w' ∧ DefinedRow w'.model p row)
      fun _ => True := by
  refine ((checked_of_add row label).and ((moves_add p row label true).ends w)).mono ?_
    fun _ _ => trivial
  rintro _ w' ⟨hchecked, ht⟩
  have hrow : DefinedRow w.model p row := by
    intro q hq x hx rounded hr
    obtain ⟨roundedRow, hrr, hbounds⟩ := hchecked q hq
    obtain ⟨y, hy, hxy⟩ := exists_right_of_mem (roundList_eq_ok.1 hrr).2 hx
    obtain rfl : rounded = y := Except.ok.inj (hr.symm.trans hxy)
    exact defined_of_checkBounds hbounds rounded hy
  exact ⟨ht.keeps, hrow.keeps ht.keeps⟩

/-- Restoring supports stores the supports of all measures within bounds. -/
theorem ends_restoreSupports_defined :
    Ends restoreSupports w
      (fun _ w' => w.Keeps w' ∧ ∀ ref ∈ w.model.liveRefs .measure, DefinedMeasure w'.model ref)
      fun _ => True := by
  unfold restoreSupports
  rw [ends_bind, ends_model, ends_bind]
  -- point variables only add supports, which cannot undo anything
  have added : ∀ p values, Moves Keeps (Store.add (α := α) p values (.given .userDefined) true) :=
    fun p _ => (moves_add p _ _ _).mono fun _ _ h => h.keeps
  refine Ends.mono (Moves.ends (R := Keeps) (.forIn (fun ref _ => (moves_check _).bind fun v =>
    (moves_check _).bind fun found => Moves.bind (.forIn (fun pair _ =>
      (added _ _).bind fun _ => .pure _) _) fun _ => .pure _) _) w) ?_ fun _ _ => trivial
  intro _ w₁ hk₁
  rw [ends_bind]
  -- over the measures, and in each over its rows: rows passed were stored within bounds
  refine (Ends.forIn (fun gone w' => w.Keeps w' ∧ ∀ ref ∈ gone, DefinedMeasure w'.model ref)
    ⟨hk₁, nofun⟩ ?_).mono (fun _ _ h => (ends_pure _).2 h) fun _ h => h
  rintro gone ref rest w₂ - ⟨hk₂, hgone⟩
  rw [ends_bind, ends_check]
  refine ⟨fun μ hμ => ?_, fun _ _ => trivial⟩
  dsimp only
  rw [ends_bind]
  refine (Ends.forIn
    (fun pairs w' => w₂.Keeps w' ∧ ∀ pair ∈ pairs, DefinedRow w'.model pair.1 pair.2)
    ⟨refl_of _ w₂, nofun⟩ ?_).mono ?_ fun _ h => h
  · rintro pairs ⟨p, row⟩ _ w₃ - ⟨hk₃, hpairs⟩
    rw [ends_bind]
    refine (ends_add_definedRow p row _).mono ?_ fun _ h => h
    rintro _ w₄ ⟨hk₄, hrow⟩
    refine (ends_pure _).2 ⟨rfl, trans_of _ hk₃ hk₄, fun pair hpair => ?_⟩
    rcases List.mem_append.1 hpair with hpair | hpair
    · exact (hpairs pair hpair).keeps hk₄
    · rwa [List.mem_singleton.1 hpair]
  · rintro _ w₃ ⟨hk₃, hall⟩
    refine (ends_pure _).2 ⟨rfl, trans_of _ hk₂ hk₃, fun ref' href' => ?_⟩
    rcases List.mem_append.1 href' with href' | href'
    · exact (hgone ref' href').keeps hk₃
    · obtain rfl := List.mem_singleton.1 href'
      intro μ' hμ'
      rw [(trans_of Keeps hk₂ hk₃).objects.measure, hμ] at hμ'
      cases hμ'
      exact hall

/-- Once supports are prepared, the rounded supports of all measures are defined. -/
theorem ends_prepareSupports_defined :
    Ends prepareSupports w (fun _ w' => w.Keeps w' ∧ ∀ ref, DefinedMeasure w'.model ref)
      fun _ => True := by
  unfold prepareSupports
  rw [ends_bind, ends_model]
  dsimp only
  rw [ends_bind]
  -- only restoring checks bounds; the passes before and after keep objects and digits
  have fill : Moves Keeps (forIn (w.model.liveRefs .parameter) PUnit.unit fun p _ => do
      fillIn p none false none
      return .yield PUnit.unit : Operation α PUnit) :=
    .forIn (fun p _ => ((touches_fillIn p none false none).mono fun _ _ h => h.keeps).bind
      fun _ => .pure _) _
  have rest : Moves Keeps (do
      for p in w.model.liveRefs .parameter do
        addGenerative p
      Evaluation.evaluateAll : Operation α Unit) :=
    Moves.bind (.forIn (fun p _ => ((moves_addGenerative p).mono fun _ _ h => h.keeps).bind
      fun _ => .pure _) _) fun _ => moves_model.bind fun _ =>
        Moves.bind (.forIn (fun d _ => (keeps_evaluate d).bind fun _ => .pure _) _) fun _ => .pure _
  refine (fill.ends w).mono ?_ fun _ _ => trivial
  intro _ w₁ hk₁
  rw [ends_bind]
  refine ends_restoreSupports_defined.mono ?_ fun _ h => h
  rintro _ w₂ ⟨hk₂, hdefined⟩
  refine (rest.ends w₂).mono ?_ fun _ _ => trivial
  intro _ w₃ hk₃
  refine ⟨trans_of _ hk₁ (trans_of _ hk₂ hk₃), fun ref μ hμ => ?_⟩
  have href : ref ∈ w₁.model.liveRefs .measure :=
    Model.mem_liveRefs_measure.2 ⟨μ, (trans_of Keeps hk₂ hk₃).objects.measure.1 hμ⟩
  exact (hdefined ref href).keeps hk₃ μ hμ

omit [LawfulScalar α] in
/-- The points of measures are defined if their supports are. -/
theorem pointsDefined_of_measures (hshaped : ∀ ref μ, m.measure ref = .ok μ → μ.data.WellShaped)
    (h : ∀ ref, DefinedMeasure m ref) : m.PointsDefined := by
  intro ref μ points hμ hpoints point hpoint x hx
  have hall := Building.forall₂_of_roundedPoints (P := fun _ x => Scalar.Defined x)
    (hshaped ref μ hμ) (fun p row hrow y hy q hq => h ref μ hμ (p, row) hrow q hq y hy) hpoints
    point hpoint
  obtain ⟨p, -, hdef⟩ := exists_left_of_mem hall hx
  exact hdef

end Lawful

end Preparation

/-! ## Builds -/

/-- Two lists fix the same parameters at the same values. -/
def SameFixed (fixed fixed' : List (Ref × α)) : Prop :=
  ∀ p, (Point.get? fixed p == Point.get? fixed' p) = true

namespace Model

/-- The rows of measure data belong to its parameters. -/
def Shaped (m : Model α) : Prop :=
  ∀ ref μ, m.measure ref = .ok μ → μ.data.WellShaped

/-- Lists of values tell the reduced variables of one variable apart: they are equal just where the
same parameters have the same values. -/
def TellsApart (m : Model α) : Prop :=
  ∀ ref ref' v fixed fixed', m.Reduces ref v fixed → m.Reduces ref' v fixed' →
    ((fixed.map (·.2) == fixed'.map (·.2)) = true ↔ SameFixed fixed fixed')

/-- What measures reduce is recorded if their expressions were made, and nothing is recorded
twice. -/
structure Reduced (m : Model α) (t : Transcription α) : Prop where
  complete : ∀ ref e, t.measures.get? ref = some e → e.rows ≠ [] → ∀ v fixed,
    m.Reduces ref v fixed → ∃ r ∈ t.reduced, r.ref = v ∧ SameFixed r.fixed fixed
  unique : t.reduced.Pairwise fun r r' => ¬ (r.ref = r'.ref ∧ SameFixed r.fixed r'.fixed)

/-- What is recorded as far as values tell is so for parameters with their values, where values tell
reduced variables apart. -/
theorem reduced_of_recorded {m : Model α} {t : Transcription α} (h : Building.Recorded m t)
    (htells : m.TellsApart) : m.Reduced t where
  complete ref e he hrows v fixed hv := by
    obtain ⟨r, hr, rfl, hvalues⟩ := h.complete ref e he hrows v fixed hv
    obtain ⟨ref', hr'⟩ := h.origin r hr
    exact ⟨r, hr, rfl, (htells ref' ref r.ref r.fixed fixed hr' hv).1 hvalues⟩
  unique := by
    refine h.unique.imp_of_mem fun {r r'} hr hr' hne hsame => ?_
    obtain ⟨ref, hv⟩ := h.origin r hr
    obtain ⟨ref', hv'⟩ := h.origin r' hr'
    -- the same values at the same parameters would have been found by their values
    have hvalues := (htells ref ref' r.ref r.fixed r'.fixed hv (hsame.1 ▸ hv')).2 hsame.2
    rw [show (r.values == r'.values) = true from hvalues] at hne
    exact Bool.noConfusion (hne hsame.1)

theorem Reduces.of_markReady {m : Model α} {t : Option (Transcription α)} {ref v : Ref}
    {fixed : List (Ref × α)} (h : (m.markReady t).Reduces ref v fixed) : m.Reduces ref v fixed := by
  cases h with
  | atPoint measure kind indexed some left rounded mem =>
    exact .atPoint measure kind indexed some left rounded mem

theorem Reduces.markReady {m : Model α} {ref v : Ref} {fixed : List (Ref × α)}
    (h : m.Reduces ref v fixed) (t : Option (Transcription α)) :
    (m.markReady t).Reduces ref v fixed := by
  cases h with
  | atPoint measure kind indexed some left rounded mem =>
    exact .atPoint measure kind indexed some left rounded mem

end Model

section Lawful

variable [LawfulScalar α] {m : Model α} {e : Environment α} {verbose : Option Bool}
  {t : Transcription α} {w' : Workspace α}

/-- A successful build transcribes a model with the same objects, whose measures have defined
supports. -/
theorem exists_of_build (hbuild : Transcription.build verbose ⟨e, m⟩ = .ok t w') :
    ∃ w₁, Workspace.Keeps ⟨e, m⟩ w₁ ∧ (∀ ref, DefinedMeasure w₁.model ref) ∧
      (∃ verbose, w₁.model.transcribe verbose = .ok t) ∧
      w'.model = w₁.model.markReady (some t) := by
  -- how a build ends, said of all of its runs
  have hends : Ends (Transcription.build verbose) ⟨e, m⟩ (fun t w' => ∃ w₁,
      Workspace.Keeps ⟨e, m⟩ w₁ ∧ (∀ ref, DefinedMeasure w₁.model ref) ∧
        (∃ verbose, w₁.model.transcribe verbose = .ok t) ∧
        w'.model = w₁.model.markReady (some t)) fun _ => True := by
    unfold Transcription.build
    rw [ends_bind, ends_get]
    dsimp only
    rw [ends_bind]
    refine (ends_prepareSupports_defined (w := ⟨e, m⟩)).mono ?_ fun _ h => h
    rintro _ w₁ ⟨hk, hdefined⟩
    rw [ends_bind, Operation.ends_model, ends_bind, Operation.ends_check]
    refine ⟨fun t ht => ?_, fun _ _ => trivial⟩
    rw [ends_bind, Operation.ends_modifyModel, ends_bind, Operation.ends_onEnvironment]
    exact .of_forall (fun _ _ => (ends_pure _).2 ⟨w₁, hk, hdefined, ⟨_, ht⟩, rfl⟩) fun _ => trivial
  exact hends.of_ok hbuild

/-- Measure data are the same after a build. -/
theorem Model.Shaped.of_build (hshaped : m.Shaped)
    (hbuild : Transcription.build verbose ⟨e, m⟩ = .ok t w') : w'.model.Shaped := by
  obtain ⟨w₁, hk, -, -, hmodel⟩ := exists_of_build hbuild
  rw [hmodel]
  exact fun ref μ hμ => hshaped ref μ (hk.objects.measure.1 hμ)

/-- What a build records, as far as values tell. -/
theorem recorded_of_build (hshaped : m.Shaped)
    (hbuild : Transcription.build verbose ⟨e, m⟩ = .ok t w') : Building.Recorded w'.model t := by
  obtain ⟨w₁, hk, hdefined, ⟨_, ht⟩, hmodel⟩ := exists_of_build hbuild
  have hrecorded := Building.recorded_of_transcribe (pointsDefined_of_measures
    (fun ref μ hμ => hshaped ref μ (hk.objects.measure.1 hμ)) hdefined) ht
  rw [hmodel]
  refine ⟨⟨fun r hr => ?_, hrecorded.unique⟩, fun ref e he hrows v fixed hv =>
    hrecorded.complete ref e he hrows v fixed hv.of_markReady⟩
  obtain ⟨ref, hv⟩ := hrecorded.origin r hr
  exact ⟨ref, hv.markReady _⟩

end Lawful

/-! ### Measures that list parameters in one order -/

omit [Scalar α] in
theorem Point.get?_of_not_mem {fixed : List (Ref × α)} {p : Ref} (h : p ∉ fixed.map (·.1)) :
    Point.get? fixed p = none := by
  rw [Point.get?, Option.map_eq_none_iff, List.find?_eq_none]
  rintro row hrow hp
  exact h (of_decide_eq_true hp ▸ List.mem_map_of_mem hrow)

/-- Lists that fix the same parameters in the same order fix them at the same values just where the
values are equal one by one. -/
theorem sameFixed_iff {fixed fixed' : List (Ref × α)} (hkeys : fixed.map (·.1) = fixed'.map (·.1))
    (hnodup : (fixed.map (·.1)).Nodup) :
    (fixed.map (·.2) == fixed'.map (·.2)) = true ↔ SameFixed fixed fixed' := by
  induction fixed generalizing fixed' with
  | nil =>
    obtain rfl : fixed' = [] := List.map_eq_nil_iff.1 hkeys.symm
    exact ⟨fun _ _ => rfl, fun _ => rfl⟩
  | cons row rest ih =>
    obtain ⟨p, x⟩ := row
    obtain _ | ⟨⟨p', x'⟩, rest'⟩ := fixed'
    · cases hkeys
    simp only [List.map_cons, List.cons.injEq] at hkeys
    obtain ⟨rfl, hkeys⟩ := hkeys
    obtain ⟨hp, hnodup⟩ := List.nodup_cons.1 hnodup
    rw [List.map_cons, List.map_cons, List.cons_beq_cons, Bool.and_eq_true, ih hkeys hnodup]
    constructor
    · rintro ⟨hx, hrest⟩ r
      rw [Point.get?_cons, Point.get?_cons]
      split
      · exact hx
      · exact hrest r
    · intro h
      refine ⟨?_, fun r => ?_⟩
      · have hfirst := h p
        rwa [Point.get?_cons, Point.get?_cons, if_pos rfl, if_pos rfl] at hfirst
      · have hr := h r
        rw [Point.get?_cons, Point.get?_cons] at hr
        split at hr
        · -- the first parameter is not fixed again
          rename_i hpr
          subst hpr
          rw [Point.get?_of_not_mem hp, Point.get?_of_not_mem (hkeys ▸ hp)]
          rfl
        · exact hr

namespace Model

/-- Whether measures list no parameter twice, and measures of one variable list those of its
parameters that they fix in one order. -/
def measuresInOrder (m : Model α) : Bool :=
  m.measures.objects.all fun μ => decide μ.data.parameters.Nodup &&
    m.measures.objects.all fun μ' => decide (μ'.function ≠ μ.function) ||
      match m.indexed μ.function with
      | .ok (_, parameters) => decide (μ.data.parameters.filter (· ∈ parameters) =
          μ'.data.parameters.filter (· ∈ parameters))
      | .error _ => true

/-- The parameters that are fixed at a point are the same at all points of a measure. -/
theorem map_fst_fixedAt {m : Model α} (hshaped : m.Shaped) {ref : Ref} {μ : Measure α}
    {points : List (List α)} (hμ : m.measure ref = .ok μ)
    (hpoints : Building.roundedPoints m μ.data = .ok points) {point : List α} (hp : point ∈ points)
    (parameters : List Ref) : (fixedAt μ.data.parameters parameters point).map (·.1) =
      μ.data.parameters.filter (· ∈ parameters) := by
  have hlength : μ.data.parameters.length = point.length :=
    (Building.forall₂_of_roundedPoints (P := fun _ _ => True) (hshaped ref μ hμ)
      (fun _ _ _ _ _ _ _ _ _ => trivial) hpoints point hp).length_eq
  have hkeys : (fun p => decide (p ∈ parameters)) ∘ Prod.fst =
      fun row : Ref × α => decide (row.1 ∈ parameters) := rfl
  rw [fixedAt, ← List.map_fst_zip hlength.le, List.filter_map, hkeys,
    List.map_fst_zip hlength.le]

/-- Values tell reduced variables apart where measures list parameters in one order. -/
theorem tellsApart_of_measuresInOrder {m : Model α} (hshaped : m.Shaped)
    (h : m.measuresInOrder = true) : m.TellsApart := by
  intro ref ref' v fixed fixed' hv hv'
  obtain ⟨μ, name, parameters, points, point, hμ, rfl, hindexed, hpoints, hp, rfl⟩ :=
    hv.exists_point
  obtain ⟨μ', name', parameters', points', point', hμ', hfunction, hindexed', hpoints', hp', rfl⟩ :=
    hv'.exists_point
  rw [hindexed] at hindexed'
  cases hindexed'
  have hobjects := List.all_eq_true.1 h μ (Table.mem_objects_of_get? (measure_eq_ok.1 hμ).2.2)
  rw [Bool.and_eq_true, decide_eq_true_eq] at hobjects
  obtain ⟨hnodup, hall⟩ := hobjects
  -- the two measures are of one function, so the check has compared their parameters
  have horder := List.all_eq_true.1 hall μ' (Table.mem_objects_of_get? (measure_eq_ok.1 hμ').2.2)
  rw [hindexed] at horder
  have hfilter : μ.data.parameters.filter (· ∈ parameters) =
      μ'.data.parameters.filter (· ∈ parameters) := by simpa [hfunction] using horder
  refine sameFixed_iff ?_ ?_
  · rw [map_fst_fixedAt hshaped hμ hpoints hp, map_fst_fixedAt hshaped hμ' hpoints' hp', hfilter]
  · rw [map_fst_fixedAt hshaped hμ hpoints hp]
    exact hnodup.filter _

end Model

theorem Requested.shaped [LawfulScalar α] {m : Model α} (h : Requested m) : m.Shaped :=
  fun _ μ hμ => (h.sound.measure _ μ (Model.measure_eq_ok.1 hμ).2.2).2.1

/-! ### Reduced variables of builds -/

/-- A successful build records what each measure reduces whose expression was made, and nothing
twice, if lists of values tell reduced variables apart. -/
theorem reduced_of_build [LawfulScalar α] {m : Model α} (hshaped : m.Shaped) {e : Environment α}
    {verbose : Option Bool} {t : Transcription α} {w' : Workspace α}
    (hbuild : Transcription.build verbose ⟨e, m⟩ = .ok t w') (htells : w'.model.TellsApart) :
    w'.model.Reduced t :=
  Model.reduced_of_recorded (recorded_of_build hshaped hbuild) htells

/-- Two measures over the same parameter of a variable, in data of their own, with a point in
common. -/
theorem reduced_of_build_shared :
    let a : Ref := ⟨0, .parameter, 1⟩
    let b : Ref := ⟨0, .parameter, 2⟩
    let x : Ref := ⟨0, .infiniteVariable, 1⟩
    let first : MeasureData ℚ := ⟨[b], [1 / 2, 1 / 2], [[0, 1]], [], .uniformGrid, .unit, "first"⟩
    let second : MeasureData ℚ := ⟨[b], [1, 1], [[1, 1 / 2]], [], .uniformGrid, .unit, "second"⟩
    let m : Model ℚ := Request.replay { id := 0 }
      [.addParameter (.scalar (.interval 0 1)) "a" (some [0, 1]) 0 (some 6)
        (.finiteDifference .backward),
      .addParameter (.scalar (.interval 0 1)) "b" (some [0, 1]) 0 (some 6)
        (.finiteDifference .backward),
      .addInfiniteVariable "x" [.given a, .given b] none none .none false,
      .addMeasure (.given x) first ⟨rfl, by decide⟩ "first",
      .addMeasure (.given x) second ⟨rfl, by decide⟩ "second"]
    m.Shaped ∧ ∃ t w', Transcription.build none ⟨{}, m⟩ = .ok t w' ∧ w'.model.TellsApart ∧
      t.reduced.map (·.fixed) = [[(b, 0)], [(b, 1)], [(b, 1 / 2)]] ∧ w'.model.Reduced t := by
  intro a b x first second m
  have hr : Requested m := .replay (.start 0 "model") _
  have hrun : (match Transcription.build none ⟨{}, m⟩ with
    | .ok t w' => decide (t.reduced.map (·.fixed) = [[(b, 0)], [(b, 1)], [(b, 1 / 2)]]) &&
        w'.model.measuresInOrder
    | .error _ _ => false) = true := by decide +kernel
  split at hrun
  · rename_i t w' h
    obtain ⟨hfixed, horder⟩ := Bool.and_eq_true_iff.1 hrun
    have htells : w'.model.TellsApart :=
      Model.tellsApart_of_measuresInOrder (hr.shaped.of_build h) horder
    exact ⟨hr.shaped, t, w', h, htells, of_decide_eq_true hfixed,
      reduced_of_build hr.shaped h htells⟩
  · cases hrun

/-- Where two measures fix different parameters of a variable at the same value, only the first
finds its reduced variable recorded. -/
theorem not_reduced_of_build :
    let a : Ref := ⟨0, .parameter, 1⟩
    let b : Ref := ⟨0, .parameter, 2⟩
    let x : Ref := ⟨0, .infiniteVariable, 1⟩
    let parameter (name : String) : Request ℚ := .addParameter (.scalar (.interval 0 1)) name
      (some [0, 1]) 0 (some 6) (.finiteDifference .backward)
    let data (p : Ref) : MeasureData ℚ := ⟨[p], [1], [[1 / 2]], [], .uniformGrid, .unit, "data"⟩
    let m : Model ℚ := Request.replay { id := 0 }
      [parameter "a", parameter "b",
      .addInfiniteVariable "x" [.given a, .given b] none none .none false,
      .addMeasure (.given x) (data a) ⟨rfl, by decide⟩ "over a",
      .addMeasure (.given x) (data b) ⟨rfl, by decide⟩ "over b"]
    Reachable m ∧ ∃ t w', Transcription.build none ⟨{}, m⟩ = .ok t w' ∧ ¬ w'.model.Reduced t := by
  intro a b x parameter data m
  let second : Ref := ⟨0, .measure, 2⟩
  have hr : Reachable m := .replay (.start 0 "model") _
  have hrun : Ends (Transcription.build none) ⟨{}, m⟩ (fun t w' =>
      t.reduced.map (·.fixed) = [[(a, 1 / 2)]] ∧
      (t.measures.get? second).map (·.rows.isEmpty) = some false ∧
      ((w'.model.indexed x).toOption.any fun found => decide (found.2 = [a, b])) = true ∧
      ((w'.model.measure second).toOption.any fun μ =>
        decide (μ.function = x ∧ μ.data.parameters = [b] ∧
          (Building.roundedPoints w'.model μ.data).toOption = some [[1 / 2]])) = true)
      fun _ => False := by decide +kernel
  obtain ⟨t, w', h, hfixed, hentry, hindexed, hmeasure⟩ := hrun.exists_ok
  obtain ⟨e, he, hrows⟩ := Option.map_eq_some_iff.1 hentry
  obtain ⟨⟨name, _⟩, hindexed, rfl⟩ := Except.exists_of_decide _ hindexed
  obtain ⟨μ, hμ, hfunction, hmeasured, hround⟩ := Except.exists_of_decide _ hmeasure
  obtain ⟨points, hpoints, rfl⟩ := Except.exists_of_decide
    (x := Building.roundedPoints w'.model μ.data) (· = [[1 / 2]])
    (by rw [hround]; exact decide_eq_true rfl)
  refine ⟨hr, t, w', h, fun hreduced => ?_⟩
  have hv : w'.model.Reduces second μ.function (fixedAt μ.data.parameters [a, b] [1 / 2]) :=
    .atPoint hμ (by rw [hfunction]; rfl) (by rw [hfunction]; exact hindexed)
      ⟨b, by simp [hmeasured]⟩ ⟨a, by simp, by simp [hmeasured, a, b]⟩ hpoints (by simp)
  obtain ⟨r, hmem, -, hsame⟩ := hreduced.complete second e he (by simpa using hrows) _ _ hv
  -- all that is recorded fixes the other parameter
  have hr : r.fixed = [(a, 1 / 2)] := List.mem_singleton.1 (hfixed ▸ List.mem_map_of_mem hmem)
  rw [hr, hmeasured] at hsame
  exact absurd (hsame b) (by decide)

/-- Where two measures fix the same parameters of a variable at the same values, but list them in
different orders, the reduced variable is recorded twice. -/
theorem not_reduced_of_build_orders :
    let a : Ref := ⟨0, .parameter, 1⟩
    let b : Ref := ⟨0, .parameter, 2⟩
    let c : Ref := ⟨0, .parameter, 3⟩
    let x : Ref := ⟨0, .infiniteVariable, 1⟩
    let parameter (name : String) : Request ℚ := .addParameter (.scalar (.interval 0 1)) name
      (some [0, 1]) 0 (some 6) (.finiteDifference .backward)
    let data (p q : Ref) (y z : ℚ) : MeasureData ℚ :=
      ⟨[p, q], [1], [[y], [z]], [], .uniformGrid, .unit, "data"⟩
    let m : Model ℚ := Request.replay { id := 0 }
      [parameter "a", parameter "b", parameter "c",
      .addInfiniteVariable "x" [.given a, .given b, .given c] none none .none false,
      .addMeasure (.given x) (data a b (1 / 4) (3 / 4)) ⟨rfl, by simp [data]⟩ "over a and b",
      .addMeasure (.given x) (data b a (3 / 4) (1 / 4)) ⟨rfl, by simp [data]⟩ "over b and a"]
    Reachable m ∧ ∃ t w', Transcription.build none ⟨{}, m⟩ = .ok t w' ∧ ¬ w'.model.Reduced t := by
  intro a b c x parameter data m
  have hr : Reachable m := .replay (.start 0 "model") _
  have hrun : (match Transcription.build none ⟨{}, m⟩ with
    | .ok t _ => decide (t.reduced.map (fun r => (r.ref, r.fixed)) =
        [(x, [(a, 1 / 4), (b, 3 / 4)]), (x, [(b, 3 / 4), (a, 1 / 4)])])
    | .error _ _ => false) = true := by decide +kernel
  split at hrun
  · rename_i t w' h
    refine ⟨hr, t, w', h, fun hreduced => ?_⟩
    have hpairwise : (t.reduced.map fun r => (r.ref, r.fixed)).Pairwise fun row row' =>
        ¬ (row.1 = row'.1 ∧ SameFixed row.2 row'.2) := List.pairwise_map.2 hreduced.unique
    rw [of_decide_eq_true hrun, List.pairwise_pair] at hpairwise
    refine hpairwise ⟨rfl, fun p => ?_⟩
    simp only [Point.get?_cons]
    -- the two lists are permutations of each other: look `a` up, then the rest
    by_cases ha : a = p
    · subst ha
      decide +kernel
    · rw [if_neg ha, if_neg ha]
      exact beq_self_eq_true _
  · cases hrun

end Discretization
