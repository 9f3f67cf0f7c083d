import Discretization.Proofs.Answers
import Discretization.Proofs.Meanings

/-!
# The Meaning of Evaluation Equations

A transcription keeps what the equations of derivatives say. Each stored equation has a finite
constraint at every combination of the supports of the other parameters, under the key that puts the
value it evaluates at in the place of its parameter. Over exact numbers the constraint says that the
sum of the equation is zero, where objects have the values of their variables at the combination.

## Main definitions

* `Transcription.place?`: the finite variable of an object at a key;
* `Discretizes`: the finite constraints of a derivative mean what its equations mean.

## Main results

* `Building.respects_places`: expressions of variables and derivatives are their finite variables;
* `discretizes_of_build`: a build turns every equation into exactly its finite constraints.
-/

namespace Discretization

open Transcription

variable {α : Type} [Scalar α]

/-! ## Places of variables -/

/-- The finite variable of an object at a key. -/
def Transcription.place? (t : Transcription α) (ref : Ref) (key : List α) : Option Nat :=
  (t.vars.get? ref).bind (·.get? key)

/-- The value of the finite variable of an object at a key. -/
def Transcription.valueAt (t : Transcription α) (σ : Int → α) (ref : Ref) (key : List α) : α :=
  match t.place? ref key with
  | some i => σ i
  | none => 0

theorem Transcription.valueAt_of_place {t : Transcription α} {ref : Ref} {key : List α} {i : Nat}
    (h : t.place? ref key = some i) (σ : Int → α) : t.valueAt σ ref key = σ i := by
  rw [valueAt, h]

section Keys

variable [LawfulScalar α]

/-- Equal keys are equal to the same keys. -/
theorem beq_congr_of_beq {key key' : List α} (h : (key == key') = true) (k : List α) :
    (k == key) = (k == key') := by
  -- numbers are partially equal only: an undefined one does not equal itself
  have : PartialEquivBEq α := { symm := LawfulScalar.beq_symm, trans := LawfulScalar.beq_trans }
  induction k generalizing key key' with
  | nil =>
    cases key with
    | nil => cases key' with
      | nil => rfl
      | cons => cases h
    | cons => cases key' with
      | nil => cases h
      | cons => rfl
  | cons x k ih =>
    cases key with
    | nil => cases key' with
      | nil => rfl
      | cons => cases h
    | cons y key => cases key' with
      | nil => cases h
      | cons y' key' =>
        rw [List.cons_beq_cons, Bool.and_eq_true] at h
        rw [List.cons_beq_cons, List.cons_beq_cons, BEq.congr_right h.1, ih h.2]

/-- Equal keys are found in the same rows. -/
theorem Entry.get?_congr {β : Type} {key key' : List α} (h : (key == key') = true)
    (e : Entry α β) : e.get? key = e.get? key' := by
  simp only [get?, beq_congr_of_beq h]

end Keys

namespace Building

variable {m : Model α} {t : Transcription α (Coordinate α)} {verbose : Bool} {d : Derivative}

/-- The expression of an infinite variable or derivative is its finite variable at the key. -/
def Places (m : Model α) (vars : Entries α Nat) (ref : Ref) (key : List α) (e : Expression α) :
    Prop :=
  ∀ name parameters, m.indexed ref = .ok (name, parameters) → ∃ entry i,
    vars.get? ref = some entry ∧ entry.get? key = some i ∧ e = .ofVariable i

theorem respects_places [LawfulScalar α] (hd : m.Defined) (h : LaidOut m verbose t) :
    Respects m t.vars (Places m (t.vars.mapKeys (·.value))) where
  -- the statement is about infinite variables and derivatives, so other kinds have nothing to show
  parameter ref x hk name parameters hi := by
    rcases Model.kind_of_indexed hi with hk' | hk' <;>
      exact absurd (hk.symm.trans hk') (by decide)
  single ref i hk _ name parameters hi := by
    rcases Model.kind_of_indexed hi with hk' | hk' <;>
      rw [hk'] at hk <;> exact absurd hk (by decide)
  indexed ref name parameters e key i hi honGrid he hget _ _ _ := by
    refine ⟨e.mapKeys (·.value), i, ?_, ?_, rfl⟩
    · exact Entries.get?_mapKeys_of_some _ he
    · exact (Model.get?_mapKeys hd (h.onGridKey hd hi he) honGrid).trans hget
  measure ref μ parameters key weights points parts hμ _ _ _ _ _ _ name _ hi := by
    rcases Model.kind_of_indexed hi with hk' | hk' <;>
      exact absurd ((Model.measure_eq_ok.1 hμ).2.1.symm.trans hk') (by decide)
  congr ref key key' e hbeq hplaces name parameters hi := by
    obtain ⟨entry, i, hentry, hget, he⟩ := hplaces name parameters hi
    exact ⟨entry, i, hentry, (Entry.get?_congr hbeq entry).symm.trans hget, he⟩

/-- A term of an equation at a combination is a finite variable: the one of its object at the key
with the value of the term. -/
theorem place?_of_goodAt {t : Transcription α} {ref : Ref} {name : String} {x : α}
    {rest : List (Coordinate α)} {part : Expression α}
    (hi : m.indexed ref = .ok (name, d.parameters)) (hnodup : d.parameters.Nodup)
    (hrest : rest.length = d.others.length)
    (h : GoodAt m (Places m t.vars) ref (d.point { value := x } rest) part) :
    ∃ i : Nat, t.place? ref (d.key x (rest.map (·.value))) = some i ∧ part = .ofVariable i := by
  obtain ⟨parameters, key, hf, hkey, hplaces⟩ := h
  rw [Model.functionParameters_eq_ok.2 (.inr (.inr (.inr ⟨name, hi⟩))), Except.ok.injEq] at hf
  subst hf
  rw [Derivative.key_point hnodup _ hrest, Except.ok.injEq] at hkey
  subst hkey
  obtain ⟨entry, i, hentry, hget, rfl⟩ := hplaces name _ hi
  rw [Derivative.key, map_weave] at hget
  refine ⟨i, ?_, rfl⟩
  rw [place?, hentry]
  exact hget

end Building

/-! ## Equations -/

/-- The finite constraints of a derivative stand at the values that its equations evaluate at, each
with every combination of the supports of the other parameters. They say that the sum of the
equation is zero there: every object in it has a finite variable, and between the sides is what the
values of these make. -/
structure Discretizes (m : Model α) (t : Transcription α) (d : Derivative)
    (equations : List (Equation α)) (e : Entry α Nat) : Prop where
  spans : e.parameters = d.parameters
  /-- The equations in order, and for each the combinations in order. -/
  keys : e.keys = equations.flatMap fun equation =>
    (m.grid d.others).map (d.key equation.head.value)
  distinct : e.Distinct
  placed : ∀ equation ∈ equations, ∀ rest ∈ m.grid d.others, ∀ term ∈ equation.terms,
    ∃ i, t.place? term.ref (d.key term.value rest) = some i
  meaning : ∀ equation ∈ equations, ∀ rest ∈ m.grid d.others, ∃ i f,
    e.get? (d.key equation.head.value rest) = some i ∧ t.finite.constraints[i]? = some f ∧
      f.sense = .eq ∧ (ExactScalar α → f.rhs = 0 ∧ ∀ σ,
        f.body.eval σ = equation.residual fun ref x => t.valueAt σ ref (d.key x rest))

section Equations

variable {m : Model α} {t : Transcription α} {d : Derivative} {rest : List α}
  {terms : List (EquationTerm α)} {parts : List (Expression α)}

/-- The sum of multiples of the finite variables of terms has no constant. -/
theorem constant_of_places [ExactScalar α] (h : List.Forall₂ (fun (term : EquationTerm α) part =>
    ∃ i : Nat, t.place? term.ref (d.key term.value rest) = some i ∧ part = .ofVariable i)
    terms parts) :
    (Expression.weightedSum ((terms.map (·.coefficient)).zip parts)).constant = 0 := by
  -- each part is a finite variable, whose expression has no constant
  have hrows : ∃ rows : List (α × Int), (terms.map (·.coefficient)).zip parts =
      rows.map fun row => (row.1, .ofVariable row.2) := by
    induction h with
    | nil => exact ⟨[], rfl⟩
    | @cons term _ _ _ hpart _ ih =>
      obtain ⟨i, -, rfl⟩ := hpart
      obtain ⟨rows, hrows⟩ := ih
      refine ⟨(term.coefficient, i) :: rows, ?_⟩
      rw [List.map_cons, List.zip_cons_cons, hrows]
      rfl
  obtain ⟨rows, hrows⟩ := hrows
  rw [hrows]
  exact Expression.constant_weightedSum_ofVariable rows

/-- The sum of multiples of the finite variables of terms has the value that the terms make. -/
theorem eval_of_places [ExactScalar α] (h : List.Forall₂ (fun (term : EquationTerm α) part =>
    ∃ i : Nat, t.place? term.ref (d.key term.value rest) = some i ∧ part = .ofVariable i)
    terms parts) (σ : Int → α) :
    (Expression.weightedSum ((terms.map (·.coefficient)).zip parts)).eval σ = Scalar.sum
      (terms.map fun term => term.coefficient * t.valueAt σ term.ref (d.key term.value rest)) := by
  rw [Expression.eval_weightedSum]
  congr 1
  induction h with
  | nil => rfl
  | cons hpart _ ih =>
    obtain ⟨i, hi, rfl⟩ := hpart
    rw [List.map_cons, List.map_cons, List.zip_cons_cons, List.map_cons, ih, valueAt_of_place hi,
      Expression.eval_ofVariable]

end Equations

section Derivatives

variable [LawfulScalar α] {m : Model α} {d : Derivative} {ref : Ref} {equations : List (Equation α)}

omit [LawfulScalar α] in
/-- The objects of the terms of an equation have the parameters of its derivative. -/
theorem indexed_of_term (hs : m.Sound) (hderivative : m.derivative ref = .ok d)
    (hequations : m.equations? ref.index = some equations) {equation : Equation α}
    (hequation : equation ∈ equations) {term : EquationTerm α} (hterm : term ∈ equation.terms) :
    ∃ name, m.indexed term.ref = .ok (name, d.parameters) := by
  obtain ⟨hid, hk, hfound⟩ := Model.derivative_eq_ok.1 hderivative
  obtain ⟨q, -, -, hfits⟩ := hs.equations ref.index d equations hfound hequations
  rcases (hfits equation hequation term hterm).1 with hterm | hterm
  · refine ⟨d.name, Model.indexed_eq_ok.2 ?_⟩
    rw [hterm]
    exact ⟨rfl, .inr ⟨d, rfl, hfound, rfl, rfl⟩⟩
  · rw [hterm]
    exact (hs.derivative ref.index d hfound).2.1

omit [LawfulScalar α] in
/-- A key of an equation and a combination equals itself. -/
theorem key_beq_self (hs : m.Sound) (hd : m.Defined) (hderivative : m.derivative ref = .ok d)
    (hequations : m.equations? ref.index = some equations) {equation : Equation α}
    (hequation : equation ∈ equations) {rest : List α} (hrest : rest ∈ m.grid d.others) :
    (d.key equation.head.value rest == d.key equation.head.value rest) = true := by
  obtain ⟨q, hq, -, hfits⟩ :=
    hs.equations ref.index d equations (Model.derivative_eq_ok.1 hderivative).2.2 hequations
  have hhead := (hfits equation hequation equation.head List.mem_cons_self).2
  exact weave_beq_self (hd d.parameter q hq _ hhead) (Model.beq_self_of_mem_grid hd hrest)

/-- The keys of equations that evaluate at separated values are different. -/
theorem pairwise_keys (hs : m.Sound) (hd : m.Defined) (hmem : d.parameter ∈ d.parameters)
    (hheads : Separated (Equation.heads equations)) :
    (equations.flatMap fun equation => (m.grid d.others).map (d.key equation.head.value)).Pairwise
      fun k k' => (k == k') = false := by
  have hlength : ∀ rest ∈ m.grid d.others, rest.length = d.others.length := by
    intro rest hrest
    rw [Model.grid, mem_combinations] at hrest
    exact hrest.length_eq.trans (List.length_map _)
  rw [Equation.heads, Separated, List.pairwise_map] at hheads
  rw [List.pairwise_flatMap]
  constructor
  · -- within one equation the combinations differ
    intro equation _
    rw [List.pairwise_map]
    exact (Model.pairwise_grid hs hd d.others).imp_of_mem fun hrest hrest' hne =>
      Derivative.key_ne_of_ne hmem (hlength _ hrest) (hlength _ hrest') (.inr hne)
  · -- between two equations the values at which they evaluate differ
    refine hheads.imp fun hne k hk k' hk' => ?_
    obtain ⟨rest, hrest, rfl⟩ := List.mem_map.1 hk
    obtain ⟨rest', hrest', rfl⟩ := List.mem_map.1 hk'
    exact Derivative.key_ne_of_ne hmem (hlength _ hrest) (hlength _ hrest') (.inl hne)

variable {t : Transcription α (Coordinate α)}

omit [LawfulScalar α] in
/-- The keys of the rows of equations and combinations, once they are lists of numbers. -/
theorem keys_of_imposes {Good : Ref → List α → Expression α → Prop} {e : Entry (Coordinate α) Nat}
    (h : List.Forall₂ (Building.Imposes m Good d t.finite.constraints)
      (equations.product (m.gridKeys d.others)) e.rows) :
    (e.mapKeys (·.value)).keys = equations.flatMap fun equation =>
      (m.grid d.others).map (d.key equation.head.value) :=
  calc (e.mapKeys (·.value)).keys
    _ = (e.rows.map (·.1)).map (List.map (·.value)) := Entry.keys_mapKeys _ e
    _ = ((equations.product (m.gridKeys d.others)).map fun cell =>
        d.key ({ value := cell.1.head.value } : Coordinate α) cell.2).map
          (List.map (·.value)) := by
      rw [Building.map_fst_of_imposes h]
    _ = equations.flatMap fun equation => (m.gridKeys d.others).map fun rest =>
        d.key equation.head.value (rest.map (·.value)) := by
      rw [List.product, List.map_flatMap, List.map_flatMap]
      simp only [List.map_map, Function.comp_def, Derivative.key, map_weave]
    _ = equations.flatMap fun equation =>
        (m.grid d.others).map (d.key equation.head.value) := by
      simp only [← Model.map_value_gridKeys, List.map_map, Function.comp_def]

omit [LawfulScalar α] in
/-- The finite constraint of a row means what its equation means at its combination. -/
theorem meaning_of_imposes (hs : m.Sound) (hderivative : m.derivative ref = .ok d)
    (hequations : m.equations? ref.index = some equations) {equation : Equation α}
    (hequation : equation ∈ equations) {rest : List (Coordinate α)}
    (hrest : rest.length = d.others.length) {row : List (Coordinate α) × Nat}
    (h : Building.Imposes m (Building.Places m (t.vars.mapKeys (·.value))) d t.finite.constraints
      (equation, rest) row) :
    (∀ term ∈ equation.terms, ∃ i,
      (t.mapKeys (·.value)).place? term.ref (d.key term.value (rest.map (·.value))) = some i) ∧
    ∃ f, t.finite.constraints[row.2]? = some f ∧ f.sense = .eq ∧
      (ExactScalar α → f.rhs = 0 ∧ ∀ σ, f.body.eval σ = equation.residual fun ref x =>
        (t.mapKeys (·.value)).valueAt σ ref (d.key x (rest.map (·.value)))) := by
  obtain ⟨hnodup, -⟩ := Building.parameters_of_derivative hs hderivative
  obtain ⟨name, parts, sum, hparts, rfl, hfinite⟩ := h.body
  -- term by term: its expression is the finite variable at its own key
  have hplaces : List.Forall₂ (fun (term : EquationTerm α) part => ∃ i : Nat,
      (t.mapKeys (·.value)).place? term.ref (d.key term.value (rest.map (·.value))) = some i ∧
        part = .ofVariable i) equation.terms parts := by
    refine ((List.forall₂_and_left _ _).2 ⟨fun _ h => h, hparts⟩).imp fun term part hpart => ?_
    obtain ⟨_, hi⟩ := indexed_of_term hs hderivative hequations hequation hpart.1
    exact Building.place?_of_goodAt hi hnodup hrest hpart.2
  refine ⟨fun term hterm => ?_, _, hfinite, rfl, fun _ => ⟨?_, fun σ => ?_⟩⟩
  · obtain ⟨_, -, i, hi, -⟩ := exists_right_of_mem hplaces hterm
    exact ⟨i, hi⟩
  · dsimp only
    rw [constant_of_places hplaces]
    let _ := ExactScalar.commRing (α := α)
    exact sub_zero 0
  · have hvalue := eval_of_places hplaces σ
    rw [← Expression.eval_terms_add_constant, constant_of_places hplaces] at hvalue
    let _ := ExactScalar.commRing (α := α)
    exact (add_zero _).symm.trans hvalue

/-- A derivative whose equations have their finite constraints keeps their meaning. -/
theorem discretizes_of_imposed (hs : m.Sound) (hd : m.Defined)
    (hderivative : m.derivative ref = .ok d)
    (hequations : m.equations? ref.index = some equations)
    (hheads : Separated (Equation.heads equations))
    (h : Building.Imposed m (Building.Places m (t.vars.mapKeys (·.value))) ref d
      (equations.product (m.gridKeys d.others)) t) :
    ∃ e, (t.mapKeys (·.value)).evaluations.get? ref = some e ∧
      Discretizes m (t.mapKeys (·.value)) d equations e := by
  obtain ⟨-, hmem⟩ := Building.parameters_of_derivative hs hderivative
  obtain ⟨e, he, hparameters, hrows⟩ := h.entry
  have hkeys := keys_of_imposes hrows
  have hdistinct : (e.mapKeys (·.value)).Distinct := by
    have hpairwise := pairwise_keys hs hd hmem hheads
    rw [← hkeys] at hpairwise
    exact List.pairwise_map.1 hpairwise
  -- every equation has its row at every combination
  have hcell : ∀ equation ∈ equations, ∀ rest ∈ m.grid d.others, ∃ key ∈ m.gridKeys d.others,
      key.map (·.value) = rest ∧ ∃ row ∈ e.rows,
        Building.Imposes m (Building.Places m (t.vars.mapKeys (·.value))) d t.finite.constraints
          (equation, key) row := by
    intro equation hequation rest hrest
    rw [← Model.map_value_gridKeys] at hrest
    obtain ⟨key, hkey, rfl⟩ := List.mem_map.1 hrest
    exact ⟨key, hkey, rfl,
      exists_right_of_mem hrows (List.pair_mem_product.2 ⟨hequation, hkey⟩)⟩
  refine ⟨e.mapKeys (·.value), ?_, hparameters, hkeys, hdistinct, ?_, ?_⟩
  · exact Entries.get?_mapKeys_of_some _ he
  · intro equation hequation rest hrest
    obtain ⟨key, hkey, rfl, row, -, himposes⟩ := hcell equation hequation rest hrest
    exact (meaning_of_imposes hs hderivative hequations hequation
      (Model.onGridKey_of_mem hd hkey).length_eq.symm himposes).1
  · intro equation hequation rest hrest
    obtain ⟨key, hkey, rfl, row, hrow, himposes⟩ := hcell equation hequation rest hrest
    obtain ⟨-, f, hfinite, hsense, hmeaning⟩ := meaning_of_imposes hs hderivative hequations
      hequation (Model.onGridKey_of_mem hd hkey).length_eq.symm himposes
    refine ⟨row.2, f, ?_, hfinite, hsense, hmeaning⟩
    have hrowkey : row.1.map (·.value) = d.key equation.head.value (key.map (·.value)) := by
      rw [himposes.same, Derivative.key, map_weave, Derivative.key]
    have hmapped : (row.1.map (·.value), row.2) ∈ (e.mapKeys (·.value)).rows :=
      List.mem_map.2 ⟨row, hrow, rfl⟩
    rw [← hrowkey]
    refine Entry.get?_of_mem hdistinct hmapped ?_
    rw [hrowkey]
    exact key_beq_self hs hd hderivative hequations hequation hrest

/-- A transcription keeps the meaning of the equations of every derivative. -/
theorem discretizes_of_transcribe (hs : m.Sound) (hd : m.Defined) (hg : m.OnGrid)
    (hsep : m.Separated) {verbose : Bool} {t : Transcription α}
    (ht : m.transcribe verbose = .ok t) (hderivative : m.derivative ref = .ok d) :
    ∃ equations e, m.equations? ref.index = some equations ∧ t.evaluations.get? ref = some e ∧
      Discretizes m t d equations e := by
  obtain ⟨t', hrun, rfl⟩ := Model.transcribe_eq_ok.1 ht
  have hends := Building.ends_run_of_respects hs hd hg verbose
    (fun vars => Building.Places m (vars.mapKeys (·.value)))
    fun _ hlaid => Building.respects_places hd hlaid
  obtain ⟨-, -, hdetermined⟩ := hends.of_ok hrun
  obtain ⟨equations, hequations, himposed⟩ :=
    hdetermined hsep ref (Model.mem_liveRefs_derivative.2 ⟨d, hderivative⟩) d hderivative
  obtain ⟨e, he, hdiscretizes⟩ := discretizes_of_imposed hs hd hderivative hequations
    (hsep ref.index equations hequations) himposed
  exact ⟨equations, e, hequations, he, hdiscretizes⟩

end Derivatives

/-! ## Built models -/

/-- A successful build of any model that comes about by requests turns the equations of every
derivative into exactly their finite constraints, if all supports are defined, and point variables
and measures lie on the grid. -/
theorem discretizes_of_build [LawfulScalar α] {m : Model α} (h : Requested m) {e : Environment α}
    {verbose : Option Bool} {t : Transcription α} {w' : Workspace α}
    (hbuild : Transcription.build verbose ⟨e, m⟩ = .ok t w') (hdef : w'.model.Defined)
    (hg : w'.model.OnGrid) {ref : Ref} {d : Derivative} (hd : w'.model.derivative ref = .ok d) :
    ∃ equations entry, w'.model.equations? ref.index = some equations ∧
      t.evaluations.get? ref = some entry ∧ Discretizes w'.model t d equations entry := by
  have hr := h.build hbuild
  obtain ⟨w₁, -, -, ⟨verbose', ht⟩, hmodel⟩ := exists_of_build hbuild
  have htranscribe : w'.model.transcribe verbose' = .ok t := by
    rw [hmodel, Model.transcribe_markReady, ht]
  exact discretizes_of_transcribe hr.sound hdef hg (Model.separated_of_requested hr) htranscribe hd

/-- A variable over two intervals whose derivative is taken with respect to the second one, so that
the value of an equation stands behind the combination of the others. -/
theorem discretizes_of_build_plane :
    let p : Ref := ⟨0, .parameter, 1⟩
    let q : Ref := ⟨0, .parameter, 2⟩
    let x : Ref := ⟨0, .infiniteVariable, 1⟩
    let dx : Ref := ⟨0, .derivative, 1⟩
    let m : Model ℚ := Request.replay { id := 0 }
      [.addParameter (.scalar (.interval 0 1)) "t" (some [0, 1]) 0 (some 6)
        (.finiteDifference .backward),
      .addParameter (.scalar (.interval 0 1)) "s" (some [0, 1 / 2, 1]) 0 (some 6)
        (.finiteDifference .backward),
      .addInfiniteVariable "x" [.given p, .given q] none none .none false,
      .addDerivative (.given x) q "dx" (.ok "s"),
      .addPointVariable (.given x) [0, 1] "corner"]
    Requested m ∧ ∃ t w' d, Transcription.build none ⟨{}, m⟩ = .ok t w' ∧ w'.model.Defined ∧
      w'.model.OnGrid ∧ w'.model.derivative dx = .ok d ∧ ∃ equations entry,
        w'.model.equations? dx.index = some equations ∧ t.evaluations.get? dx = some entry ∧
          entry.keys = [[0, 1 / 2], [1, 1 / 2], [0, 1], [1, 1]] ∧
            Discretizes w'.model t d equations entry := by
  intro p q x dx m
  have hr : Requested m := .replay (.start 0 "model") _
  have hbuild : (match Transcription.build none ⟨{}, m⟩ with
    | .ok t w' => w'.model.isUnderived && (w'.model.derivative dx).toOption.isSome &&
        (t.evaluations.get? dx).map (·.keys) == some [[0, 1 / 2], [1, 1 / 2], [0, 1], [1, 1]]
    | .error _ _ => false) = true := by decide +kernel
  split at hbuild
  · rename_i t w' hb
    rw [Bool.and_eq_true, Bool.and_eq_true, beq_iff_eq] at hbuild
    have hdef : w'.model.Defined := .of_exact _
    have hg : w'.model.OnGrid :=
      onGrid_of_build hr hb hdef (Model.labelsApart_of_underived hbuild.1.1)
    cases hd : w'.model.derivative dx with
    | error e =>
      rw [hd] at hbuild
      cases hbuild.1.2
    | ok d =>
      obtain ⟨equations, entry, hequations, hentry, hdiscretizes⟩ :=
        discretizes_of_build hr hb hdef hg hd
      rw [hentry, Option.map_some, Option.some.injEq] at hbuild
      exact ⟨hr, t, w', d, hb, hdef, hg, hd, equations, entry, hequations, hentry,
        hbuild.2, hdiscretizes⟩
  · cases hbuild

end Discretization
