import Discretization.Proofs.Passes
import Discretization.Proofs.Separations

/-!
# Evaluation Equations Become Finite Constraints

The last pass goes through the stored equations of every derivative, and for each through the
combinations of the other parameters. The key of an equation and a combination has the coordinate at
which the equation evaluates in its place among the others. Stored equations evaluate at different
values, so no key comes twice, and every equation gets its finite constraint at every combination.

## Main definitions

* `Derivative.key`: the key of a coordinate and a combination of the other parameters;
* `Building.Imposes`: a finite constraint stands for an equation at a combination;
* `Building.Determined`: derivatives have the finite constraints of their equations.

## Main results

* `Building.ends_evaluations`: every equation gets its finite constraints, in order;
* `Building.ends_run_of_respects`: all passes in order give a layout with finite constraints.
-/

namespace Discretization

/-! ## Keys with one coordinate put in -/

section Keys

variable {κ ι : Type} {p : Ref} {parameters : List Ref}

/-- The key of parameters that has the coordinate of one of them in its place among the coordinates
of the others. -/
def weave (p : Ref) (c : κ) : (parameters : List Ref) → (rest : List κ) → List κ
  | [], _ => []
  | r :: parameters, rest =>
    if r = p then c :: weave p c parameters rest
    else rest.take 1 ++ weave p c parameters rest.tail

theorem weave_cons_self (p : Ref) (c : κ) (parameters : List Ref) (rest : List κ) :
    weave p c (p :: parameters) rest = c :: weave p c parameters rest := by
  rw [weave, if_pos rfl]

theorem weave_cons_of_ne {r : Ref} (h : r ≠ p) (c x : κ) (parameters : List Ref) (rest : List κ) :
    weave p c (r :: parameters) (x :: rest) = x :: weave p c parameters rest := by
  rw [weave, if_neg h]
  rfl

/-- The parameters without one of them. -/
abbrev without (p : Ref) (parameters : List Ref) : List Ref :=
  parameters.filter (· ≠ p)

theorem without_cons_self (p : Ref) (parameters : List Ref) :
    without p (p :: parameters) = without p parameters := by
  simp [without]

theorem without_cons_of_ne {r : Ref} (h : r ≠ p) (parameters : List Ref) :
    without p (r :: parameters) = r :: without p parameters := by
  simp [without, h]

theorem map_weave (f : κ → ι) (p : Ref) (c : κ) (parameters : List Ref) (rest : List κ) :
    (weave p c parameters rest).map f = weave p (f c) parameters (rest.map f) := by
  induction parameters generalizing rest with
  | nil => rfl
  | cons r parameters ih =>
    rw [weave, weave]
    split
    · rw [List.map_cons, ih]
    · rw [List.map_append, ih, List.map_take, List.map_tail]

/-- Keys are equal only if the coordinates put in are, and the others. -/
theorem beq_of_weave_beq [BEq κ] {c c' : κ} {xs ys : List κ}
    (hxs : xs.length = (without p parameters).length)
    (hys : ys.length = (without p parameters).length)
    (h : (weave p c parameters xs == weave p c' parameters ys) = true) :
    (xs == ys) = true ∧ (p ∈ parameters → (c == c') = true) := by
  -- along the parameters, as the coordinates are woven in along them
  induction parameters generalizing xs ys with
  | nil =>
    rw [List.eq_nil_of_length_eq_zero hxs, List.eq_nil_of_length_eq_zero hys]
    exact ⟨rfl, nofun⟩
  | cons r parameters ih =>
    by_cases hr : r = p
    · subst hr
      rw [without_cons_self] at hxs hys
      rw [weave_cons_self, weave_cons_self, List.cons_beq_cons, Bool.and_eq_true] at h
      exact ⟨(ih hxs hys h.2).1, fun _ => h.1⟩
    · rw [without_cons_of_ne hr] at hxs hys
      cases xs with
      | nil => cases hxs
      | cons x xs =>
        cases ys with
        | nil => cases hys
        | cons y ys =>
          rw [weave_cons_of_ne hr, weave_cons_of_ne hr, List.cons_beq_cons, Bool.and_eq_true] at h
          obtain ⟨hrest, hput⟩ := ih (Nat.succ.inj hxs) (Nat.succ.inj hys) h.2
          refine ⟨by rw [List.cons_beq_cons, h.1, hrest, Bool.and_true], fun hmem => hput ?_⟩
          exact (List.mem_cons.1 hmem).resolve_left (Ne.symm hr)

/-- A key equals itself if its coordinates do. -/
theorem weave_beq_self [BEq κ] {c : κ} {rest : List κ} (hc : (c == c) = true)
    (hrest : (rest == rest) = true) :
    (weave p c parameters rest == weave p c parameters rest) = true := by
  induction parameters generalizing rest with
  | nil => rfl
  | cons r parameters ih =>
    by_cases hr : r = p
    · subst hr
      rw [weave_cons_self, List.cons_beq_cons, hc, ih hrest, Bool.and_true]
    · cases rest with
      | nil =>
        rw [weave, if_neg hr]
        exact ih hrest
      | cons x rest =>
        rw [List.cons_beq_cons, Bool.and_eq_true] at hrest
        rw [weave_cons_of_ne hr, List.cons_beq_cons, hrest.1, ih hrest.2, Bool.and_true]

namespace Point

/-- The coordinates of the parameters at a point that gives one of them apart from the others. -/
theorem forall₂_weave {c : κ} {rest : List κ} (hnodup : parameters.Nodup)
    (hlength : rest.length = (without p parameters).length) :
    List.Forall₂ (fun r x => Point.get? ((p, c) :: (without p parameters).zip rest) r = some x)
      parameters (weave p c parameters rest) := by
  induction parameters generalizing rest with
  | nil => exact .nil
  | cons r parameters ih =>
    rw [List.nodup_cons] at hnodup
    by_cases hr : r = p
    · subst hr
      rw [without_cons_self] at hlength ⊢
      rw [weave_cons_self]
      exact .cons (by rw [get?_cons, if_pos rfl]) (ih hnodup.2 hlength)
    · rw [without_cons_of_ne hr] at hlength ⊢
      cases rest with
      | nil => cases hlength
      | cons x rest =>
        rw [weave_cons_of_ne hr, List.zip_cons_cons]
        refine .cons ?_ ?_
        · rw [get?_cons, if_neg (Ne.symm hr), get?_cons, if_pos rfl]
        · -- the parameters that follow differ from the one just gone through
          refine ((List.forall₂_and_left _ _).2
            ⟨fun _ h => h, ih hnodup.2 (Nat.succ.inj hlength)⟩).imp fun r' x' ⟨hmem, hx'⟩ => ?_
          have hne : r ≠ r' := fun h => hnodup.1 (h ▸ hmem)
          rw [get?_cons] at hx' ⊢
          rwa [get?_cons, if_neg hne]

end Point

end Keys

namespace Derivative

variable {κ : Type} {d : Derivative}

/-- The parameters that a derivative is not taken with respect to. -/
def others (d : Derivative) : List Ref :=
  without d.parameter d.parameters

/-- The key with a coordinate of the parameter and coordinates of the others. -/
def key (d : Derivative) (c : κ) (rest : List κ) : List κ :=
  weave d.parameter c d.parameters rest

/-- The point with a coordinate of the parameter and coordinates of the others. -/
def point (d : Derivative) (c : κ) (rest : List κ) : Point κ :=
  (d.parameter, c) :: d.others.zip rest

theorem key_point {α : Type} (hnodup : d.parameters.Nodup) (c : κ) {rest : List κ}
    (hlength : rest.length = d.others.length) :
    (d.point c rest).key d.parameters = (.ok (d.key c rest) : Except (Error α) (List κ)) :=
  Point.key_eq_ok.2 (Point.forall₂_weave hnodup hlength)

/-- Different coordinates, or different combinations, have different keys. -/
theorem key_ne_of_ne [BEq κ] {c c' : κ} {rest rest' : List κ} (hmem : d.parameter ∈ d.parameters)
    (hrest : rest.length = d.others.length) (hrest' : rest'.length = d.others.length)
    (h : (c == c') = false ∨ (rest == rest') = false) :
    (d.key c rest == d.key c' rest') = false := by
  by_contra hequal
  obtain ⟨hrests, hput⟩ := beq_of_weave_beq hrest hrest' (Bool.of_not_eq_false hequal)
  rcases h with h | h
  · rw [hput hmem] at h
    cases h
  · rw [hrests] at h
    cases h

end Derivative

/-- Coordinates that were read off no grid are compared by their numbers. -/
theorem Coordinate.beq_unplaced {α : Type} [Scalar α] (x y : α) :
    (({ value := x } : Coordinate α) == { value := y }) = (x == y) :=
  Bool.or_false _

namespace Building

open Transcription

variable {α : Type} [Scalar α] {m : Model α} {t : Transcription α (Coordinate α)} {ref : Ref}
  {parameters : List Ref} {verbose : Bool} {vars : Entries (Coordinate α) Nat}
  {Good : Ref → List α → Expression α → Prop} {d : Derivative}

/-! ## Equations at combinations -/

/-- The finite constraint of a row stands for an equation at a combination of the other parameters:
its body is the sum of the terms without the constant, which is taken off the right-hand side. -/
structure Imposes (m : Model α) (Good : Ref → List α → Expression α → Prop) (d : Derivative)
    (finite : List (FiniteConstraint α)) (cell : Equation α × List (Coordinate α))
    (row : List (Coordinate α) × Nat) : Prop where
  same : row.1 = d.key { value := cell.1.head.value } cell.2
  body : ∃ name parts sum,
    List.Forall₂ (fun (term : EquationTerm α) part =>
      GoodAt m Good term.ref (d.point { value := term.value } cell.2) part) cell.1.terms parts ∧
    sum = Expression.weightedSum ((cell.1.terms.map (·.coefficient)).zip parts) ∧
    finite[row.2]? = some ⟨name, { sum with constant := 0 }, .eq, 0 - sum.constant⟩

/-- The equations and combinations gone through have their finite constraints, in order. -/
structure Imposed (m : Model α) (Good : Ref → List α → Expression α → Prop) (ref : Ref)
    (d : Derivative) (cells : List (Equation α × List (Coordinate α)))
    (t : Transcription α (Coordinate α)) : Prop where
  entry : ∃ e, t.evaluations.get? ref = some e ∧ e.parameters = d.parameters ∧
    List.Forall₂ (Imposes m Good d t.finite.constraints) cells e.rows

/-- Finite constraints were appended, and all entries are the same but the evaluations of one
derivative. -/
structure Appends (ref : Ref) (t t' : Transcription α (Coordinate α)) : Prop where
  finite : t.finite.constraints <+: t'.finite.constraints
  constraints : t'.constraints = t.constraints
  others : ∀ r, r ≠ ref → t'.evaluations.get? r = t.evaluations.get? r

omit [Scalar α] in
theorem Appends.refl (ref : Ref) (t : Transcription α (Coordinate α)) : Appends ref t t :=
  ⟨List.prefix_rfl, rfl, fun _ _ => rfl⟩

omit [Scalar α] in
theorem Appends.trans {t' t'' : Transcription α (Coordinate α)} (h : Appends ref t t')
    (h' : Appends ref t' t'') : Appends ref t t'' :=
  ⟨h.finite.trans h'.finite, h'.constraints.trans h.constraints,
    fun r hr => (h'.others r hr).trans (h.others r hr)⟩

variable {cells : List (Equation α × List (Coordinate α))}
  {cell : Equation α × List (Coordinate α)}

/-- Constraints that are appended leave the others where they are. -/
theorem Imposes.mono {finite finite' : List (FiniteConstraint α)}
    {row : List (Coordinate α) × Nat} (h : Imposes m Good d finite cell row)
    (happended : finite <+: finite') : Imposes m Good d finite' cell row := by
  obtain ⟨name, parts, sum, hparts, hsum, hfinite⟩ := h.body
  exact ⟨h.same, name, parts, sum, hparts, hsum, getElem?_of_prefix happended hfinite⟩

theorem Imposed.mono {t' : Transcription α (Coordinate α)} (h : Imposed m Good ref d cells t)
    (hfinite : t.finite.constraints <+: t'.finite.constraints)
    (hentry : t'.evaluations.get? ref = t.evaluations.get? ref) :
    Imposed m Good ref d cells t' := by
  obtain ⟨e, he, hparameters, hrows⟩ := h.entry
  exact ⟨e, hentry.trans he, hparameters, hrows.imp fun _ _ h => h.mono hfinite⟩

/-- The keys of rows are those of the equations and combinations they stand for. -/
theorem map_fst_of_imposes {finite : List (FiniteConstraint α)}
    {rows : List (List (Coordinate α) × Nat)}
    (h : List.Forall₂ (Imposes m Good d finite) cells rows) :
    rows.map (·.1) = cells.map fun cell => d.key { value := cell.1.head.value } cell.2 := by
  induction h with
  | nil => rfl
  | cons hrow _ ih => rw [List.map_cons, List.map_cons, hrow.same, ih]

/-- A value of an axis beside a key on the grid. -/
theorem onGridPoint_cons [LawfulScalar α] (hd : m.Defined) {p : Ref} {value : α}
    (hvalue : value ∈ m.axis p) {key : List (Coordinate α)} (hkey : m.OnGridKey parameters key) :
    m.OnGridPoint ((p, { value }) :: parameters.zip key) := by
  intro r c hc
  rw [Point.get?_cons] at hc
  split at hc
  · rename_i hr
    cases hc
    exact hr ▸ ⟨fun _ hplace => (by cases hplace), value, hvalue, hd.axis p value hvalue⟩
  · exact Model.onGridPoint_zip hkey r c hc

/-- An equation at a combination whose key is new gets a finite constraint, and no entry of another
object changes. -/
theorem ends_equationAt [LawfulScalar α] (hs : m.Sound) (hd : m.Defined) (hg : m.OnGrid)
    (hr : Respects m vars Good) (h : Stable m verbose vars Good t) {e : Equation α}
    {rest : List (Coordinate α)} (hnodup : d.parameters.Nodup)
    (hvalues : ∀ term ∈ e.terms, term.value ∈ m.axis d.parameter)
    (hrest : m.OnGridKey d.others rest) :
    Ends (equationAt m ref d e d.others rest) t
      (fun _ t' => Stable m verbose vars Good t' ∧ Appends ref t t' ∧
        ∀ cells, Imposed m Good ref d cells t →
          (∀ cell ∈ cells, (d.key ({ value := cell.1.head.value } : Coordinate α) cell.2 ==
            d.key { value := e.head.value } rest) = false) →
          Imposed m Good ref d (cells ++ [(e, rest)]) t')
      fun _ => True := by
  have hkey := d.key_point (α := α) hnodup ({ value := e.head.value } : Coordinate α)
    hrest.length_eq.symm
  unfold equationAt
  rw [ends_bind, ends_get]
  dsimp only
  rw [ends_bind, ends_check]
  refine ⟨fun key hkey' => ?_, fun _ _ => trivial⟩
  obtain rfl : d.key { value := e.head.value } rest = key :=
    Except.ok.inj (hkey.symm.trans hkey')
  -- what is recorded so far has none of the keys of other equations and combinations
  have hfresh : ∀ cells, Imposed m Good ref d cells t →
      (∀ cell ∈ cells, (d.key ({ value := cell.1.head.value } : Coordinate α) cell.2 ==
        d.key { value := e.head.value } rest) = false) →
      ∃ entry, t.evaluations.get? ref = some entry ∧ entry.parameters = d.parameters ∧
        List.Forall₂ (Imposes m Good d t.finite.constraints) cells entry.rows ∧
        entry.position? (d.key { value := e.head.value } rest) = none := by
    rintro cells ⟨entry, hentry, hparameters, hrows⟩ hnew
    refine ⟨entry, hentry, hparameters, hrows, Entry.position?_eq_none.2 fun row hrow => ?_⟩
    have hmem : row.1 ∈ entry.rows.map (·.1) := List.mem_map_of_mem hrow
    rw [map_fst_of_imposes hrows] at hmem
    obtain ⟨cell, hcell, hrow⟩ := List.mem_map.1 hmem
    exact hrow ▸ hnew cell hcell
  rw [ends_ite]
  refine ⟨fun hnone => ?_, fun hsome => (ends_pure _).2 ⟨h, .refl ref t, fun cells hc hnew => ?_⟩⟩
  · rw [ends_bind]
    refine (ends_sum (R := fun (term : EquationTerm α) part => GoodAt m Good term.ref
      (d.point { value := term.value } rest) part) h fun term hterm t' h' => ?_).mono ?_
      fun _ h => h
    · exact ends_expression hs hd hg hr h' term.ref (onGridPoint_cons hd (hvalues term hterm) hrest)
    rintro sum t₁ ⟨h₁, hf₁, parts, hparts, hsum⟩
    rw [ends_bind, ends_get, ends_bind, ends_appendConstraint, ends_bind,
      ends_insert (Entry.position?_eq_none.1 (Option.isNone_iff_eq_none.1 hnone)), ends_modify]
    refine ⟨h₁.of_eq rfl rfl rfl rfl rfl, ⟨?_, hf₁.constraints, fun r hne => ?_⟩,
      fun cells hc hnew => ?_⟩
    · rw [← hf₁.finite]
      exact List.prefix_append _ _
    · rw [Entries.get?_set_of_ne _ _ hne, hf₁.evaluations]
    · obtain ⟨entry, hentry, hparameters, hrows, -⟩ := hfresh cells hc hnew
      rw [hentry, Option.getD_some]
      refine ⟨_, Entries.get?_set_self _ _ _, hparameters, List.rel_append ?_ (.cons ?_ .nil)⟩
      · refine hrows.imp fun _ _ h => h.mono ?_
        rw [← hf₁.finite]
        exact List.prefix_append _ _
      · exact ⟨rfl, _, parts, sum, hparts, hsum, List.getElem?_concat_length⟩
  · obtain ⟨entry, hentry, -, -, hnone⟩ := hfresh cells hc hnew
    rw [hentry, Option.getD_some, hnone] at hsome
    exact absurd rfl hsome

/-! ## The evaluation pass -/

/-- The equations of some derivatives have their finite constraints at all combinations of the other
parameters. -/
def Determined (m : Model α) (Good : Ref → List α → Expression α → Prop) (refs : List Ref)
    (t : Transcription α (Coordinate α)) : Prop :=
  ∀ ref ∈ refs, ∀ d, m.derivative ref = .ok d → ∃ equations,
    m.equations? ref.index = some equations ∧
      Imposed m Good ref d (equations.product (m.gridKeys d.others)) t

/-- The parameters of a live derivative differ, and it is taken with respect to one of them. -/
theorem parameters_of_derivative (hs : m.Sound) (hd : m.derivative ref = .ok d) :
    d.parameters.Nodup ∧ d.parameter ∈ d.parameters := by
  obtain ⟨hmem, -, j, v, hv, hparameters⟩ :=
    hs.derivative ref.index d (Model.derivative_eq_ok.1 hd).2.2
  exact ⟨hparameters ▸ (hs.infinite j v hv).1, hmem⟩

/-- One equation is gone through at all combinations of the other parameters. Their keys are new if
the equations before evaluate at other values. -/
theorem ends_equation [LawfulScalar α] (hs : m.Sound) (hd : m.Defined) (hg : m.OnGrid)
    (hr : Respects m vars Good) (h : Stable m verbose vars Good t)
    (hderivative : m.derivative ref = .ok d) {e : Equation α} (gone : List (Equation α))
    (hvalues : ∀ term ∈ e.terms, term.value ∈ m.axis d.parameter) :
    Ends (forIn (m.gridKeys d.others) PUnit.unit fun rest _ => do
        equationAt m ref d e d.others rest
        pure (.yield PUnit.unit) : Building α PUnit) t
      (fun _ t' => Stable m verbose vars Good t' ∧ Appends ref t t' ∧
        ((∀ e' ∈ gone, (e'.head.value == e.head.value) = false) →
          Imposed m Good ref d (gone.product (m.gridKeys d.others)) t →
            Imposed m Good ref d ((gone ++ [e]).product (m.gridKeys d.others)) t'))
      fun _ => True := by
  obtain ⟨hdistinct, hmem⟩ := parameters_of_derivative hs hderivative
  have hpairwise := Model.pairwise_gridKeys hs hd d.others
  have honGrid : ∀ k ∈ m.gridKeys d.others, m.OnGridKey d.others k :=
    fun _ hk => Model.onGridKey_of_mem hd hk
  have hlength : ∀ k ∈ m.gridKeys d.others, k.length = d.others.length :=
    fun k hk => (honGrid k hk).length_eq.symm
  refine (Ends.forIn (fun keys t' => Stable m verbose vars Good t' ∧ Appends ref t t' ∧
    ((∀ e' ∈ gone, (e'.head.value == e.head.value) = false) →
      Imposed m Good ref d (gone.product (m.gridKeys d.others)) t →
        Imposed m Good ref d (gone.product (m.gridKeys d.others) ++ keys.map (e, ·)) t'))
    ⟨h, .refl ref t, fun _ himposed => by rwa [List.map_nil, List.append_nil]⟩ ?_).mono ?_
    fun _ h => h
  · rintro keys key rest t' hkeys ⟨h', happends, himposed⟩
    have hbefore : ∀ k ∈ keys, k ∈ m.gridKeys d.others := fun k hk => by
      rw [hkeys]
      exact List.mem_append_left _ hk
    have hkey : key ∈ m.gridKeys d.others := by
      rw [hkeys]
      simp
    rw [hkeys, List.pairwise_append] at hpairwise
    rw [ends_bind]
    refine (ends_equationAt hs hd hg hr h' hdistinct hvalues (honGrid key hkey)).mono ?_
      fun _ h => h
    rintro _ t₁ ⟨h₁, happends₁, himposed₁⟩
    refine (ends_pure _).2 ⟨rfl, h₁, happends.trans happends₁, fun hapart hstart => ?_⟩
    rw [List.map_append, ← List.append_assoc]
    refine himposed₁ _ (himposed hapart hstart) ?_
    rintro ⟨e', k⟩ hcell
    -- an equation before evaluates at another value, and a key before is another combination
    rcases List.mem_append.1 hcell with hcell | hcell
    · obtain ⟨he', hk⟩ := List.pair_mem_product.1 hcell
      refine Derivative.key_ne_of_ne hmem (hlength k hk) (hlength key hkey) (.inl ?_)
      rw [Coordinate.beq_unplaced]
      exact hapart e' he'
    · obtain ⟨k', hk, hpair⟩ := List.mem_map.1 hcell
      cases hpair
      exact Derivative.key_ne_of_ne hmem (hlength k (hbefore k hk)) (hlength key hkey)
        (.inr (hpairwise.2.2 k hk key List.mem_cons_self))
  · rintro _ t' ⟨h', happends, himposed⟩
    refine ⟨h', happends, fun hapart hstart => ?_⟩
    have hall := himposed hapart hstart
    rwa [List.product, List.flatMap_append, List.flatMap_singleton]

/-- The turn of a derivative gives all of its equations their finite constraints, if no two of them
evaluate at the same value. -/
theorem ends_equations [LawfulScalar α] (hs : m.Sound) (hd : m.Defined) (hg : m.OnGrid)
    (hr : Respects m vars Good) (h : Stable m verbose vars Good t)
    (hderivative : m.derivative ref = .ok d) {equations : List (Equation α)}
    (hequations : m.equations? ref.index = some equations) (hstart : Imposed m Good ref d [] t) :
    Ends (forIn equations PUnit.unit fun e _ => do
        for rest in ← keys d.others do
          equationAt m ref d e d.others rest
        return .yield PUnit.unit : Building α PUnit) t
      (fun _ t' => Stable m verbose vars Good t' ∧ Appends ref t t' ∧
        (m.Separated → Imposed m Good ref d (equations.product (m.gridKeys d.others)) t'))
      fun _ => True := by
  obtain ⟨-, -, hfound⟩ := Model.derivative_eq_ok.1 hderivative
  obtain ⟨q, hq, -, hfits⟩ := hs.equations ref.index d equations hfound hequations
  -- the invariant is about the equations that are gone, at all keys of the other parameters
  refine Ends.forIn (fun gone t' => Stable m verbose vars Good t' ∧ Appends ref t t' ∧
    (m.Separated → Imposed m Good ref d (gone.product (m.gridKeys d.others)) t'))
    ⟨h, .refl ref t, fun _ => hstart⟩ ?_
  rintro gone e rest t₁ hequation ⟨h₁, happends₁, himposed₁⟩
  have hvalues : ∀ term ∈ e.terms, term.value ∈ m.axis d.parameter := by
    rw [Model.axis_eq hq]
    exact fun term hterm => (hfits e (by rw [hequation]; simp) term hterm).2
  rw [ends_bind]
  refine (ends_keys h₁.laid.snapshot _).mono ?_ fun _ h => h
  rintro _ _ ⟨rfl, rfl⟩
  rw [ends_bind]
  refine (ends_equation hs hd hg hr h₁ hderivative gone hvalues).mono ?_ fun _ h => h
  rintro _ t₂ ⟨h₂, happends₂, himposed₂⟩
  refine (ends_pure _).2 ⟨rfl, h₂, happends₁.trans happends₂, fun hsep =>
    himposed₂ (fun e' he' => ?_) (himposed₁ hsep)⟩
  -- no earlier equation has the head of this one, so its key is a new one
  have hheads := hsep ref.index equations hequations
  rw [hequation, Equation.heads, List.map_append, Separated, List.pairwise_append] at hheads
  exact hheads.2.2 _ (List.mem_map_of_mem he') _ List.mem_cons_self

/-- The evaluation pass gives every derivative the finite constraints of its equations, and leaves
those of constraints alone. -/
theorem ends_evaluations [LawfulScalar α] (hs : m.Sound) (hd : m.Defined) (hg : m.OnGrid)
    (hr : Respects m vars Good) {refs : List Ref} (h : Stable m verbose vars Good t)
    (hc : Constrained m Good refs t) :
    Ends (evaluations m) t (fun _ t' => Stable m verbose vars Good t' ∧
      Constrained m Good refs t' ∧
        (m.Separated → Determined m Good (m.liveRefs .derivative) t')) fun _ => True := by
  -- each derivative has one turn, so the entries of earlier turns are not started again
  have hnodup : (m.liveRefs .derivative).Nodup := Model.nodup_liveRefs hs.derivatives.nodup
  unfold evaluations
  rw [ends_bind]
  refine (Ends.forIn (fun gone t' => Stable m verbose vars Good t' ∧ Constrained m Good refs t' ∧
    (m.Separated → Determined m Good gone t')) ⟨h, hc, fun _ => nofun⟩ ?_).mono
    (fun _ _ h' => (ends_pure _).2 h') fun _ h' => h'
  rintro gone ref rest t' hsplit ⟨h', hc', hgone⟩
  rw [hsplit, List.nodup_append] at hnodup
  rw [ends_bind, ends_check]
  refine ⟨fun d hderivative => ?_, fun _ _ => trivial⟩
  split
  · exact (ends_throw _).2 trivial
  rename_i equations hequations
  dsimp only
  rw [ends_bind, ends_modify, ends_bind]
  let t₁ := { t' with evaluations := t'.evaluations.set ref { parameters := d.parameters } }
  have h₁ : Stable m verbose vars Good t₁ := h'.of_eq rfl rfl rfl rfl rfl
  have happends : Appends ref t' t₁ :=
    ⟨List.prefix_rfl, rfl, fun r hne => Entries.get?_set_of_ne _ _ hne⟩
  have hstart : Imposed m Good ref d [] t₁ := ⟨_, Entries.get?_set_self _ _ _, rfl, .nil⟩
  refine (ends_equations hs hd hg hr h₁ hderivative hequations hstart).mono ?_ fun _ h' => h'
  rintro _ t₂ ⟨h₂, happends₂, himposed₂⟩
  have happends := happends.trans happends₂
  refine (ends_pure _).2 ⟨rfl, h₂, hc'.mono happends.finite happends.constraints,
    fun hsep r href d' hd' => ?_⟩
  rcases List.mem_append.1 href with href | href
  · obtain ⟨stored, hstored, himposed⟩ := hgone hsep r href d' hd'
    have hne : r ≠ ref := hnodup.2.2 r href ref List.mem_cons_self
    exact ⟨stored, hstored, himposed.mono happends.finite (happends.others r hne)⟩
  · obtain rfl := List.mem_singleton.1 href
    rw [hderivative] at hd'
    cases hd'
    exact ⟨equations, hequations, himposed₂ hsep⟩

/-! ## All passes -/

/-- A transcription has the layout of its model, every constraint has its finite constraints, and so
has every derivative for its equations. The terms of these have any property that is built up along
the nesting of measures. -/
theorem ends_run_of_respects [LawfulScalar α] (hs : m.Sound) (hd : m.Defined) (hg : m.OnGrid)
    (verbose : Bool) (Good : Entries (Coordinate α) Nat → Ref → List α → Expression α → Prop)
    (hr : ∀ t, LaidOut m verbose t → Respects m t.vars (Good t.vars)) :
    Ends (run m) (m.blank verbose) (fun _ t => LaidOut m verbose t ∧
      Constrained m (Good t.vars) (m.liveRefs .constraint) t ∧
        (m.Separated → Determined m (Good t.vars) (m.liveRefs .derivative) t)) fun _ => True := by
  unfold run
  rw [ends_bind]
  refine (ends_vars hs hd hg).mono ?_ fun _ h => h
  rintro _ t₁ ⟨hlaid, hmeasures⟩
  -- from here on the entries of the variables stay, and what `Good` says of them with them
  have hr := hr t₁ hlaid
  have h₁ : Stable m verbose t₁.vars (Good t₁.vars) t₁ :=
    ⟨hlaid, rfl, fun ref e parameters he => by rw [hmeasures] at he; cases he⟩
  rw [ends_bind]
  refine (ends_measures hs hd hg hr h₁).mono ?_ fun _ h => h
  rintro _ t₂ ⟨h₂, -⟩
  rw [ends_bind]
  refine (ends_constraints hs hd hg hr h₂).mono ?_ fun _ h => h
  rintro _ t₃ ⟨h₃, hc₃⟩
  refine (ends_evaluations hs hd hg hr h₃ hc₃).mono ?_ fun _ h => h
  rintro _ t₄ ⟨h₄, hc₄, hd₄⟩
  exact ⟨h₄.laid, h₄.vars ▸ hc₄, h₄.vars ▸ hd₄⟩

end Building

end Discretization
