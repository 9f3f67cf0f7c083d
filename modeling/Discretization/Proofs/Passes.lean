import Discretization.Proofs.Expressions

/-!
# Passes after the Variables

Measures and constraints are transcribed over variables that are laid out. Every expression they ask
for lies on the grid, so these passes add constraints and remembered expressions, but no variables.
A constraint is recorded at the keys of its grid that satisfy its restrictions, as the sum of its
terms with the constant on the right-hand side.

## Main definitions

* `Building.Renders`: a finite constraint stands for a constraint at a key;
* `Building.Rendered`: the keys of a constraint gone through have their finite constraints;
* `Building.Constrained`: constraints have their finite constraints.

## Main results

* `Building.ends_constraints`: the constraints pass gives every constraint its finite constraints.
-/

namespace Discretization

namespace Building

open Transcription

variable {α : Type} [Scalar α] {m : Model α} {t : Transcription α (Coordinate α)} {ref : Ref}
  {parameters : List Ref} {verbose : Bool} {vars : Entries (Coordinate α) Nat}
  {Good : Ref → List α → Expression α → Prop}

/-- What is said of variables and remembered expressions depends on nothing else. -/
theorem Stable.of_eq {t' : Transcription α (Coordinate α)} (h : Stable m verbose vars Good t)
    (hsnapshot : t'.snapshot = t.snapshot) (hnaming : t'.verbose = t.verbose)
    (hfinite : t'.finite.vars = t.finite.vars) (hvars : t'.vars = t.vars)
    (hmeasures : t'.measures = t.measures) : Stable m verbose vars Good t' :=
  ⟨h.laid.of_eq hsnapshot hnaming hfinite hvars, hvars.trans h.vars, hmeasures ▸ h.remembers⟩

/-! ## Measures -/

/-- The measures pass adds remembered expressions and reduced variables only. -/
theorem ends_measures [LawfulScalar α] (hs : m.Sound) (hd : m.Defined) (hg : m.OnGrid)
    (hr : Respects m vars Good) (h : Stable m verbose vars Good t) :
    Ends (measures m) t (fun _ t' => Stable m verbose vars Good t' ∧ Frozen t t')
      fun _ => True := by
  unfold measures
  rw [ends_bind]
  refine (Ends.forIn (fun _ t' => Stable m verbose vars Good t' ∧ Frozen t t') ⟨h, .refl t⟩
    ?_).mono (fun _ _ h' => (ends_pure _).2 h') fun _ h' => h'
  rintro gone ref rest t' - ⟨h', hf'⟩
  rw [ends_bind, ends_check]
  refine ⟨fun parameters hf => ?_, fun _ _ => trivial⟩
  rw [ends_bind]
  refine (ends_measureEntry h'.remembers hf).mono ?_ fun _ h => h
  rintro - t₁ ⟨hf₁, hr₁, -⟩
  have h₁ := h'.of_frozen hf₁ hr₁
  rw [ends_bind]
  refine (ends_keys h₁.laid.snapshot parameters).mono ?_ fun _ h => h
  rintro keys _ ⟨rfl, rfl⟩
  rw [ends_bind]
  -- the keys of one measure
  refine (Ends.forIn (fun _ t'' => Stable m verbose vars Good t'' ∧ Frozen t t'')
    ⟨h₁, hf'.trans hf₁⟩ ?_).mono (fun _ _ h' => (ends_pure _).2 ⟨rfl, h'⟩) fun _ h' => h'
  rintro gone key rest t₂ hsplit ⟨h₂, hf₂⟩
  have hkey : key ∈ m.gridKeys parameters := by
    rw [hsplit]
    simp
  rw [ends_bind]
  refine (ends_expression hs hd hg hr h₂ ref
    (Model.onGridPoint_zip (Model.onGridKey_of_mem hd hkey))).mono ?_ fun _ h => h
  rintro - t₃ ⟨h₃, hf₃, -⟩
  exact (ends_pure _).2 ⟨rfl, h₃, hf₂.trans hf₃⟩

/-! ## Constraints -/

/-- The finite constraint of a row stands for a constraint at a key: its body is the sum of the
terms without the constant, which is taken off the right-hand side. -/
structure Renders (m : Model α) (Good : Ref → List α → Expression α → Prop) (c : Constraint α)
    (parameters : List Ref) (finite : List (FiniteConstraint α)) (key : List (Coordinate α))
    (row : List (Coordinate α) × Nat) : Prop where
  same : row.1 = key
  body : ∃ name parts sum,
    List.Forall₂ (fun term part => GoodAt m Good term.2 (parameters.zip key) part) c.terms parts ∧
    sum = Expression.weightedSum ((c.terms.map (·.1)).zip parts) ∧
    finite[row.2]? = some ⟨name, { sum with constant := 0 }, c.sense, c.rhs - sum.constant⟩

/-- The keys that satisfy the restrictions of a constraint. -/
def admitted (c : Constraint α) (parameters : List Ref) (keys : List (List (Coordinate α))) :
    List (List (Coordinate α)) :=
  keys.filter fun key => Point.satisfies (parameters.zip key) c.restrictions

/-- Each key gone through that satisfies the restrictions has its finite constraint, in order. -/
structure Rendered (m : Model α) (Good : Ref → List α → Expression α → Prop) (ref : Ref)
    (c : Constraint α) (parameters : List Ref) (keys : List (List (Coordinate α)))
    (t : Transcription α (Coordinate α)) : Prop where
  entry : ∃ e, t.constraints.get? ref = some e ∧ e.parameters = parameters ∧
    List.Forall₂ (Renders m Good c parameters t.finite.constraints) (admitted c parameters keys)
      e.rows

/-- Finite constraints were appended, and the entries of other constraints are the same. -/
structure Later (ref : Ref) (t t' : Transcription α (Coordinate α)) : Prop where
  finite : t.finite.constraints <+: t'.finite.constraints
  others : ∀ r, r ≠ ref → t'.constraints.get? r = t.constraints.get? r

omit [Scalar α] in
theorem Later.refl (ref : Ref) (t : Transcription α (Coordinate α)) : Later ref t t :=
  ⟨List.prefix_rfl, fun _ _ => rfl⟩

omit [Scalar α] in
theorem Later.trans {t' t'' : Transcription α (Coordinate α)} (h : Later ref t t')
    (h' : Later ref t' t'') : Later ref t t'' :=
  ⟨h.finite.trans h'.finite, fun r hr => (h'.others r hr).trans (h.others r hr)⟩

variable {c : Constraint α} {keys : List (List (Coordinate α))} {key : List (Coordinate α)}

theorem admitted_concat (c : Constraint α) (parameters : List Ref)
    (keys : List (List (Coordinate α))) (key : List (Coordinate α)) :
    admitted c parameters (keys ++ [key]) = admitted c parameters keys ++
      if Point.satisfies (parameters.zip key) c.restrictions then [key] else [] := by
  rw [admitted, List.filter_append, List.filter_singleton, admitted, cond_eq_ite]

omit [Scalar α] in
/-- What stands in a list stands in the same place of every longer one. -/
theorem getElem?_of_prefix {finite finite' : List (FiniteConstraint α)}
    (happended : finite <+: finite') {i : Nat} {f : FiniteConstraint α}
    (hf : finite[i]? = some f) : finite'[i]? = some f := by
  obtain ⟨added, rfl⟩ := happended
  rw [List.getElem?_append_left (List.getElem?_eq_some_iff.1 hf).1]
  exact hf

/-- Constraints that are appended leave the others where they are. -/
theorem Renders.mono {finite finite' : List (FiniteConstraint α)}
    {row : List (Coordinate α) × Nat} (h : Renders m Good c parameters finite key row)
    (happended : finite <+: finite') : Renders m Good c parameters finite' key row := by
  obtain ⟨name, parts, sum, hparts, hsum, hfinite⟩ := h.body
  exact ⟨h.same, name, parts, sum, hparts, hsum, getElem?_of_prefix happended hfinite⟩

theorem Rendered.mono {t' : Transcription α (Coordinate α)}
    (h : Rendered m Good ref c parameters keys t)
    (hfinite : t.finite.constraints <+: t'.finite.constraints)
    (hentry : t'.constraints.get? ref = t.constraints.get? ref) :
    Rendered m Good ref c parameters keys t' := by
  obtain ⟨e, he, hparameters, hrows⟩ := h.entry
  exact ⟨e, hentry.trans he, hparameters, hrows.imp fun _ _ h => h.mono hfinite⟩

/-- The keys of rows are the keys they stand for. -/
theorem map_fst_of_renders {finite : List (FiniteConstraint α)}
    {rows : List (List (Coordinate α) × Nat)}
    (h : List.Forall₂ (Renders m Good c parameters finite) keys rows) :
    rows.map (·.1) = keys := by
  induction h with
  | nil => rfl
  | cons hrow _ ih => rw [List.map_cons, hrow.same, ih]

/-- One more key is gone through: it gets a finite constraint if it satisfies the restrictions. -/
theorem Rendered.step [LawfulScalar α] (hs : m.Sound) (hd : m.Defined) (hg : m.OnGrid)
    (hr : Respects m vars Good) (h : Stable m verbose vars Good t)
    (hrendered : Rendered m Good ref c parameters keys t) (hkey : m.OnGridKey parameters key)
    (hnew : ∀ k ∈ keys, (k == key) = false) :
    Ends (constraintAt m ref c parameters key) t
      (fun _ t' => Stable m verbose vars Good t' ∧ Later ref t t' ∧
        Rendered m Good ref c parameters (keys ++ [key]) t') fun _ => True := by
  obtain ⟨e, he, hparameters, hrows⟩ := hrendered.entry
  -- rows stand for keys that are gone, and this one differs from all of them
  have hfresh : ∀ row ∈ e.rows, (row.1 == key) = false := by
    intro row hrow
    have hmem : row.1 ∈ admitted c parameters keys := by
      rw [← map_fst_of_renders hrows]
      exact List.mem_map_of_mem hrow
    exact hnew _ (List.mem_filter.1 hmem).1
  unfold constraintAt
  rw [ends_bind, ends_get, he, Option.getD_some]
  dsimp only
  rw [Entry.position?_eq_none.2 hfresh, Option.isNone_none, Bool.true_and, ends_ite]
  refine ⟨fun hsatisfies => ?_, fun hfails => ?_⟩
  · rw [ends_bind]
    refine (ends_combination hs hd hg hr h c.terms (Model.onGridPoint_zip hkey)).mono ?_
      fun _ h => h
    rintro sum t₁ ⟨h₁, hf₁, parts, hparts, hsum⟩
    rw [ends_bind, ends_get, ends_bind, ends_appendConstraint, ends_bind, ends_insert hfresh,
      ends_modify]
    let finite := t₁.finite.constraints ++
      [⟨counterpartName t₁.verbose c.name key e.size, { sum with constant := 0 }, c.sense,
        c.rhs - sum.constant⟩]
    -- the sum appends no constraint, so the new one comes right behind those from before
    have happended : t.finite.constraints <+: finite := by
      rw [← hf₁.finite]
      exact List.prefix_append _ _
    have hlast : Renders m Good c parameters finite key (key, t₁.finite.constraints.length) :=
      ⟨rfl, _, parts, sum, hparts, hsum, List.getElem?_concat_length⟩
    refine ⟨h₁.of_eq rfl rfl rfl rfl rfl, ⟨happended, fun r hne => ?_⟩,
      ⟨_, Entries.get?_set_self _ _ _, hparameters, ?_⟩⟩
    · rw [Entries.get?_set_of_ne _ _ hne, hf₁.constraints]
    · rw [admitted_concat, if_pos hsatisfies]
      exact List.rel_append (hrows.imp fun _ _ h => h.mono happended) (.cons hlast .nil)
  · refine (ends_pure _).2 ⟨h, .refl ref t, e, he, hparameters, ?_⟩
    rw [admitted_concat, if_neg hfails, List.append_nil]
    exact hrows

/-- The constraints of some references have their finite constraints. -/
def Constrained (m : Model α) (Good : Ref → List α → Expression α → Prop) (refs : List Ref)
    (t : Transcription α (Coordinate α)) : Prop :=
  ∀ ref ∈ refs, ∀ c, m.constraint ref = .ok c → ∃ parameters,
    m.parametersOf ref = .ok parameters ∧
      Rendered m Good ref c parameters (m.gridKeys parameters) t

/-- The turn of a constraint goes through all of its keys. -/
theorem ends_rendered [LawfulScalar α] (hs : m.Sound) (hd : m.Defined) (hg : m.OnGrid)
    (hr : Respects m vars Good) (h : Stable m verbose vars Good t)
    (hstart : Rendered m Good ref c parameters [] t) :
    Ends (forIn (m.gridKeys parameters) PUnit.unit fun key _ => do
        constraintAt m ref c parameters key
        return .yield PUnit.unit : Building α PUnit) t
      (fun _ t' => Stable m verbose vars Good t' ∧ Later ref t t' ∧
        Rendered m Good ref c parameters (m.gridKeys parameters) t') fun _ => True := by
  -- a key does not equal any before it, so each gets a finite constraint of its own
  have hpairwise := Model.pairwise_gridKeys hs hd parameters
  refine Ends.forIn (fun keys t' => Stable m verbose vars Good t' ∧ Later ref t t' ∧
    Rendered m Good ref c parameters keys t') ⟨h, .refl ref t, hstart⟩ ?_
  rintro keys key rest t₁ hkeys ⟨h₁, hlater₁, hrendered₁⟩
  have hkey : key ∈ m.gridKeys parameters := by
    rw [hkeys]
    simp
  rw [hkeys, List.pairwise_append] at hpairwise
  rw [ends_bind]
  refine (hrendered₁.step hs hd hg hr h₁ (Model.onGridKey_of_mem hd hkey) fun k hk =>
    hpairwise.2.2 k hk key List.mem_cons_self).mono ?_ fun _ h => h
  rintro _ t₂ ⟨h₂, hlater₂, hrendered₂⟩
  exact (ends_pure _).2 ⟨rfl, h₂, hlater₁.trans hlater₂, hrendered₂⟩

/-- The constraints pass gives every constraint its finite constraints. -/
theorem ends_constraints [LawfulScalar α] (hs : m.Sound) (hd : m.Defined) (hg : m.OnGrid)
    (hr : Respects m vars Good) (h : Stable m verbose vars Good t) :
    Ends (constraints m) t (fun _ t' => Stable m verbose vars Good t' ∧
      Constrained m Good (m.liveRefs .constraint) t') fun _ => True := by
  -- each constraint has one turn, which starts its entry
  have hnodup : (m.liveRefs .constraint).Nodup := Model.nodup_liveRefs hs.constraints.nodup
  unfold constraints
  rw [ends_bind]
  refine (Ends.forIn (fun gone t' => Stable m verbose vars Good t' ∧ Constrained m Good gone t')
    ⟨h, nofun⟩ ?_).mono (fun _ _ h' => (ends_pure _).2 h') fun _ h' => h'
  rintro gone ref rest t' hsplit ⟨h', hgone⟩
  rw [hsplit, List.nodup_append] at hnodup
  rw [ends_bind, ends_check]
  refine ⟨fun c hc => ?_, fun _ _ => trivial⟩
  rw [ends_bind, ends_check]
  refine ⟨fun parameters hp => ?_, fun _ _ => trivial⟩
  rw [ends_bind, ends_modify]
  let t₁ := { t' with constraints := t'.constraints.set ref { parameters } }
  have h₁ : Stable m verbose vars Good t₁ := h'.of_eq rfl rfl rfl rfl rfl
  have hlater : Later ref t' t₁ :=
    ⟨List.prefix_rfl, fun r hne => Entries.get?_set_of_ne _ _ hne⟩
  have hstart : Rendered m Good ref c parameters [] t₁ :=
    ⟨_, Entries.get?_set_self _ _ _, rfl, .nil⟩
  rw [ends_bind]
  refine (ends_keys h₁.laid.snapshot parameters).mono ?_ fun _ h => h
  rintro keys _ ⟨rfl, rfl⟩
  rw [ends_bind]
  refine (ends_rendered hs hd hg hr h₁ hstart).mono ?_ fun _ h' => h'
  rintro _ t₂ ⟨h₂, hlater₂, hrendered⟩
  have hlater := hlater.trans hlater₂
  refine (ends_pure _).2 ⟨rfl, h₂, fun r href c' hc' => ?_⟩
  rcases List.mem_append.1 href with href | href
  · obtain ⟨ps, hps, hr⟩ := hgone r href c' hc'
    have hne : r ≠ ref := hnodup.2.2 r href ref List.mem_cons_self
    exact ⟨ps, hps, hr.mono hlater.finite (hlater.others r hne)⟩
  · obtain rfl := List.mem_singleton.1 href
    rw [hc] at hc'
    cases hc'
    exact ⟨parameters, hp, hrendered⟩

theorem Constrained.mono {refs : List Ref} {t' : Transcription α (Coordinate α)}
    (h : Constrained m Good refs t) (hfinite : t.finite.constraints <+: t'.finite.constraints)
    (hentries : t'.constraints = t.constraints) : Constrained m Good refs t' := by
  intro ref href c hc
  obtain ⟨parameters, hp, hrendered⟩ := h ref href c hc
  exact ⟨parameters, hp, hrendered.mono hfinite (by rw [hentries])⟩

end Building

end Discretization
