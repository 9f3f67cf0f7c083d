import Discretization.Proofs.Avoidance
import Discretization.Proofs.Generators

/-!
# Supports of Collections

The generator of a collection asks for the supports of each part in turn and puts them into rows, so
a call for a collection is the calls for its parts one after the other. They share the random
source: each part finds it as the parts before left it. Without a method every part gets its own
default, which is registered from the start. With a method, the call goes through as long as that
method is registered for the collection and for the part whose turn it is.

## Main definitions

* `Generation.inTurn`: the calls for the parts of a collection;
* `Generation.Stacks`: the tensor whose rows are the values of these calls;
* `Generation.Serves`: no generator fails on its part.

## Main results

* `Generation.generate_collection`: a call for a collection is the calls for its parts;
* `Generation.unsupported_inTurn_iff`: when these calls meet a part without a generator;
* `generated_in_turn`: collections are generated part by part.
-/

namespace Discretization

/-! ## Rows of a matrix -/

namespace Tensor

variable {α : Type}

/-- The entries at a position of the outermost axis. -/
def row (t : Tensor α) (i : ℕ) : List α :=
  (t.entries.drop (i * t.blockSize)).take t.blockSize

theorem row_matrix {width : ℕ} {rows : List (List α)} (h : ∀ row ∈ rows, row.length = width) {i : ℕ}
    (hi : i < rows.length) : (matrix width rows).row i = rows[i] := by
  have hsplit : rows.flatten =
      (rows.take i).flatten ++ (rows[i] ++ (rows.drop (i + 1)).flatten) := by
    conv_lhs => rw [← List.take_append_drop i rows]
    rw [List.flatten_append, List.drop_eq_getElem_cons hi, List.flatten_cons]
  have hbefore : (rows.take i).flatten.length = i * width := by
    rw [List.length_flatten, List.map_congr_left fun row hrow => h row (List.mem_of_mem_take hrow)]
    simp [hi.le]
  have hblock : (matrix width rows).blockSize = width := by simp [blockSize, matrix]
  rw [row, hblock, matrix, hsplit, List.drop_left' hbefore,
    List.take_left' (h _ (List.getElem_mem hi))]

end Tensor

/-! ## Runs in turn -/

section Turns

variable {ε σ β γ : Type} {s s' : σ}

/-- The run for an item starts where the runs for the items before it end. -/
theorem run_of_mapM_eq_ok {f : γ → EStateM ε σ β} {xs : List γ} {bs : List β}
    (h : xs.mapM f s = .ok bs s') {i : ℕ} (hi : i < xs.length) :
    ∃ (hb : i < bs.length) (s₁ s₂ : σ),
      (xs.take i).mapM f s = .ok (bs.take i) s₁ ∧ f xs[i] s₁ = .ok bs[i] s₂ := by
  -- on the items: the first run is that of the head, the others are those of the rest
  induction xs generalizing s bs i with
  | nil => exact absurd hi (Nat.not_lt_zero i)
  | cons x rest ih =>
    rw [List.mapM_cons, EStateM.bind_eq_ok] at h
    obtain ⟨b, s₁, hb, h⟩ := h
    obtain ⟨bs', s₂, hbs, h⟩ := EStateM.bind_eq_ok.1 h
    cases h
    cases i with
    | zero => exact ⟨Nat.zero_lt_succ _, s, s₁, by rw [List.take_zero, List.mapM_nil]; rfl, hb⟩
    | succ i =>
      obtain ⟨hi', t, t', htake, hf⟩ := ih hbs (Nat.lt_of_succ_lt_succ hi)
      refine ⟨Nat.succ_lt_succ hi', t, t', ?_, hf⟩
      rw [List.take_succ_cons, List.mapM_cons, EStateM.bind_of_ok hb, EStateM.bind_of_ok htake]
      rfl

/-- Runs in turn avoid an error if each of them does where the ones before left off. -/
theorem Avoids.mapM_of_moves {bad : ε → Prop} {R : σ → σ → Prop} [IsPreorder σ R]
    {f : γ → EStateM ε σ β} {xs : List γ} (hmoves : ∀ x, Moves R (f x))
    (h : ∀ x ∈ xs, ∀ s', R s s' → Avoids bad (f x) s') : Avoids bad (xs.mapM f) s := by
  induction xs generalizing s with
  | nil =>
    rw [List.mapM_nil]
    exact avoids_pure _
  | cons x rest ih =>
    rw [List.mapM_cons]
    refine (h x List.mem_cons_self s (refl_of R s)).bind_of_ends ((hmoves x).ends s) ?_
    intro b s₁ h₁
    refine Avoids.bind (ih fun y hy s' h' => ?_) fun _ _ => avoids_pure _
    exact h y (List.mem_cons_of_mem x hy) s' (trans_of R h₁ h')

/-- What is made of the result of a run does not change how it fails. -/
theorem bind_pure_eq_error {x : EStateM ε σ β} {g : β → γ} {error : ε} :
    (x >>= fun b => pure (g b)) s = .error error s' ↔ x s = .error error s' := by
  change EStateM.bind x _ s = _ ↔ _
  rw [EStateM.bind]
  cases x s with
  | ok b s₁ => exact iff_of_false nofun nofun
  | error e s₁ => exact ⟨fun h => by cases h; rfl, fun h => by cases h; rfl⟩

/-- What follows a run depends on its result only. -/
theorem bind_congr_run {x y : EStateM ε σ β} (h : x s = y s) (f : β → EStateM ε σ γ) :
    (x >>= f) s = (y >>= f) s := by
  change EStateM.bind x f s = EStateM.bind y f s
  rw [EStateM.bind, EStateM.bind, h]

/-- Runs in turn are those of another function that does the same wherever they lead. -/
theorem mapM_congr_of_moves {R : σ → σ → Prop} [IsPreorder σ R] {f g : γ → EStateM ε σ β}
    {xs : List γ} (hmoves : ∀ x, Moves R (g x)) (h : ∀ x ∈ xs, ∀ s', R s s' → f x s' = g x s') :
    xs.mapM f s = xs.mapM g s := by
  induction xs generalizing s with
  | nil => rfl
  | cons x rest ih =>
    rw [List.mapM_cons, List.mapM_cons, bind_congr_run (h x List.mem_cons_self s (refl_of R s))]
    cases hg : g x s with
    | error error s' => rw [EStateM.bind_of_error hg, EStateM.bind_of_error hg]
    | ok b s' =>
      rw [EStateM.bind_of_ok hg, EStateM.bind_of_ok hg]
      exact bind_congr_run (ih fun y hy s'' hs => h y (List.mem_cons_of_mem x hy) s''
        (trans_of R (((hmoves x).ends s).of_ok hg) hs)) _

theorem mapM_map_right {δ : Type} (g : β → δ) (f : γ → EStateM ε σ β) (xs : List γ) :
    (xs.mapM fun x => g <$> f x) = List.map g <$> xs.mapM f := by
  induction xs with
  | nil => simp
  | cons x rest ih => simp [List.mapM_cons, ih]

end Turns

/-- The error of a method that is not registered, among others. -/
def Error.IsUnsupported {α : Type} (error : Error α) : Prop :=
  error.category = .unsupported

theorem Error.OfGeneration.not_isUnsupported {α : Type} {error : Error α} (h : error.OfGeneration) :
    ¬ error.IsUnsupported := by
  cases h <;> exact nofun

/-- The domains of single parameters that the library brings along. -/
def ScalarDomain.IsBuiltin {α : Type} : ScalarDomain α → Prop
  | interval _ _ | distribution _ => True
  | custom _ _ _ | unspecified => False

namespace Generation

open Environment

variable {α : Type} {e : Environment α} {label : Label}

/-- A collection has one generator for all of its methods. -/
theorem eq_parts_of_builtin {generator : Generator α}
    (h : GeneratorRegistry.builtin.get? collectionKind label = some generator) :
    generator = .parts := by
  have hmem := GeneratorRegistry.mem_of_get? h
  simp only [GeneratorRegistry.builtin, collectionKind, intervalKind, univariateKind,
    multivariateKind, List.mem_cons, Prod.mk.injEq, List.not_mem_nil, or_false, String.reduceEq,
    false_and, false_or, true_and] at hmem
  rcases hmem with ⟨-, h⟩ | ⟨-, h⟩ | ⟨-, h⟩ | ⟨-, h⟩ <;> exact h

variable [Scalar α] {part : ScalarDomain α} {parts : List (ScalarDomain α)} {count digits : ℤ}

/-! ## Calls for the parts -/

/-- What a part of a collection gets is what a call for it returns. -/
theorem scalarValues_eq (hcount : 1 ≤ count) (hdigits : 1 ≤ digits) (method : Option Label)
    (source : ℕ) :
    scalarValues part method count.toNat digits source =
      (·.1) <$> generate (.scalar part) method (some count) (some digits) (some source) := by
  have hcount' : ¬ count < 1 := by omega
  have hdigits' : ¬ digits < 1 := by omega
  unfold scalarValues generate
  cases method with
  | none =>
    simp only [hcount', hdigits', if_false, pure_bind, map_bind, map_pure, bind_pure]
    rfl
  | some label =>
    by_cases hall : label.kind = .all <;>
      simp only [hall, hcount', hdigits', if_true, if_false, pure_bind, map_bind, map_pure,
        bind_pure] <;> rfl

/-- The calls for the parts of a collection, in their order, with the same arguments. -/
def inTurn (parts : List (ScalarDomain α)) (method : Option Label) (count digits : ℤ)
    (source : ℕ) : EnvironmentAction α (List (Tensor α × Label)) :=
  parts.mapM fun part =>
    generate (.scalar part) method (some count) (some digits) (some source)

theorem filling_of_isVector {t : Tensor α} {length : ℕ} (h : t.IsVector length) :
    t.filling length = .ok t.entries := by
  obtain ⟨hshape, hlength⟩ := h
  unfold Tensor.filling
  rw [hshape]
  by_cases hone : length = 1
  · -- a list of one number is taken for that number
    subst hone
    obtain ⟨x, hx⟩ := List.length_eq_one_iff.1 hlength
    simp [hx, pure, Except.pure]
  · simp [hone, pure, Except.pure]

/-- What a part gets fills its row, with the generators registered from the start. -/
theorem filling_of_generate (hcount : 1 ≤ count) (hdigits : 1 ≤ digits)
    (he : e.generators = .builtin) (part : ScalarDomain α) (method : Option Label) (source : ℕ) :
    (do
      let values ← scalarValues part method count.toNat digits source
      EnvironmentAction.check (values.filling count.toNat)) e =
      ((·.1.entries) <$> generate (.scalar part) method (some count) (some digits)
        (some source)) e := by
  rw [scalarValues_eq hcount hdigits, bind_map_left, ← bind_pure_comp]
  cases hgenerated : generate (.scalar part) method (some count) (some digits) (some source) e with
  | error error e' => rw [EStateM.bind_of_error hgenerated, EStateM.bind_of_error hgenerated]
  | ok found e' =>
    rw [EStateM.bind_of_ok hgenerated, EStateM.bind_of_ok hgenerated]
    have hvector := ((ends_generate e part method (some count) (some digits)
      (some source)).of_ok hgenerated (delivers_of_builtin he _)).2 count rfl
    rw [filling_of_isVector hvector]
    rfl

theorem rows_eq (hcount : 1 ≤ count) (hdigits : 1 ≤ digits) (he : e.generators = .builtin)
    (method : Option Label) (source : ℕ) :
    rows parts method count.toNat digits source e =
      ((fun found => Tensor.matrix count.toNat (found.map (·.1.entries))) <$>
        inTurn parts method count digits source) e := by
  have hrows : (parts.mapM fun part => do
        let values ← scalarValues part method count.toNat digits source
        EnvironmentAction.check (values.filling count.toNat)) e =
      (parts.mapM fun part => (·.1.entries) <$>
        generate (.scalar part) method (some count) (some digits) (some source)) e := by
    refine mapM_congr_of_moves (R := SameRules) (fun part => ?_) fun part _ e' hrules => ?_
    · rw [← bind_pure_comp]
      exact (moves_generate _ _ _ _ _).bind fun _ => .pure _
    · exact filling_of_generate hcount hdigits (hrules.generators.trans he) part method source
  rw [mapM_map_right] at hrows
  unfold rows inTurn
  rw [bind_congr_run hrows, bind_map_left, ← bind_pure_comp]

/-- The calls for the parts, after the source is found, and their values as rows. -/
def stacked (parts : List (ScalarDomain α)) (method : Option Label) (count digits : ℤ)
    (source : Option ℕ) (label : Label) : EnvironmentAction α (Tensor α × Label) := do
  let source ← resolveSource source
  let found ← inTurn parts method count digits source
  return (Tensor.matrix count.toNat (found.map (·.1.entries)), label)

/-- A call for a collection, with a method that is registered for it, is the calls for its parts. A
mixture leaves the method to each part. -/
theorem generate_collection (hcount : 1 ≤ count) (hdigits : 1 ≤ digits)
    (he : e.generators = .builtin) (hlabel : label.kind ≠ .all)
    (hregistered : e.generators.get? collectionKind label ≠ none) (source : Option ℕ) :
    generate (.collection parts) (some label) (some count) (some digits) source e =
      stacked parts (if label = .mixture then none else some label) count digits source label
        e := by
  obtain ⟨generator, hgenerator⟩ := Option.ne_none_iff_exists'.1 hregistered
  obtain rfl : generator = .parts := eq_parts_of_builtin (he ▸ hgenerator)
  rw [generate_of_registered hcount hdigits hlabel (.collection parts) hgenerator]
  -- finding the source leaves the generators as they are
  simp only [stacked, ofDomain]
  cases hsource : resolveSource source e with
  | error error e₁ => rw [EStateM.bind_of_error hsource, EStateM.bind_of_error hsource]
  | ok number e₁ =>
    have hrules := ((moves_resolveSource source).ends e).of_ok hsource
    rw [EStateM.bind_of_ok hsource, EStateM.bind_of_ok hsource,
      bind_congr_run (rows_eq hcount hdigits (hrules.generators.trans he) _ number), bind_map_left]

/-- The tensor has a row for each part. It is what a call for the part returns where the calls for
the parts before it left off. -/
structure Stacks (parts : List (ScalarDomain α)) (method : Option Label) (count digits : ℤ)
    (source : ℕ) (e : Environment α) (values : Tensor α) : Prop where
  /-- There are as many columns as values were asked for. -/
  shape : values.shape = [parts.length, count.toNat]
  /-- The source is in the state left by the parts before. -/
  row : ∀ i (hi : i < parts.length), ∃ earlier e₁ own e₂,
    inTurn (parts.take i) method count digits source e = .ok earlier e₁ ∧
    generate (.scalar parts[i]) method (some count) (some digits) (some source) e₁ = .ok own e₂ ∧
    values.row i = own.1.entries

/-- With the generators registered from the start, all parts get as many values as asked for. -/
theorem ends_inTurn (he : e.generators = .builtin) (method : Option Label) (source : ℕ) :
    Ends (inTurn parts method count digits source) e
      (fun found e' => SameRules e e' ∧
        List.Forall₂ (fun _ own => own.1.entries.length = count.toNat) parts found)
      fun _ => True := by
  refine Ends.mapM_of_moves (R := SameRules)
    (P := fun _ (own : Tensor α × Label) _ => own.1.entries.length = count.toNat)
    (fun _ _ _ _ _ h => h) fun part _ e₁ h₁ => ?_
  refine (((moves_generate _ _ _ _ _).ends e₁).and
    (ends_generate e₁ part method (some count) (some digits) (some source))).mono ?_
    fun _ _ => trivial
  rintro own e₂ ⟨h₂, hmade⟩
  exact ⟨h₂, ((hmade (delivers_of_builtin (h₁.generators.trans he) _)).2 count rfl).2⟩

theorem stacks_of_inTurn (he : e.generators = .builtin) {method : Option Label} {source : ℕ}
    {found : List (Tensor α × Label)} {e' : Environment α}
    (h : inTurn parts method count digits source e = .ok found e') :
    Stacks parts method count digits source e
      (Tensor.matrix count.toNat (found.map (·.1.entries))) := by
  obtain ⟨-, hall⟩ := (ends_inTurn he method source).of_ok h
  have hwidth : ∀ row ∈ found.map (·.1.entries), row.length = count.toNat := by
    intro row hrow
    obtain ⟨own, hown, rfl⟩ := List.mem_map.1 hrow
    obtain ⟨part, -, hlength⟩ := exists_left_of_mem hall hown
    exact hlength
  refine ⟨by simp [Tensor.matrix, hall.length_eq], fun i hi => ?_⟩
  obtain ⟨hi', e₁, e₂, hearlier, hown⟩ := run_of_mapM_eq_ok h hi
  refine ⟨_, e₁, found[i], e₂, hearlier, hown, ?_⟩
  rw [Tensor.row_matrix hwidth (by rwa [List.length_map]), List.getElem_map]

/-! ## Parts without a generator -/

/-- No generator that is found for a part fails, each where the parts before it left off. -/
def Serves (label : Label) (count : ℕ) (digits : ℤ) (source : ℕ) :
    List (ScalarDomain α) → Environment α → Prop
  | [], _ => True
  | part :: rest, e => ∀ generator, e.generators.get? part.kind label = some generator →
      ∃ values e', ofScalar generator part label count digits source e = .ok values e' ∧
        Serves label count digits source rest e'

theorem generate_part (hcount : 1 ≤ count) (hdigits : 1 ≤ digits) (hlabel : label.kind ≠ .all)
    {generator : Generator α} (h : e.generators.get? part.kind label = some generator)
    (source : ℕ) :
    generate (.scalar part) (some label) (some count) (some digits) (some source) e =
      (ofScalar generator part label count.toNat digits source >>= fun values =>
        pure (values, label)) e :=
  generate_of_registered hcount hdigits hlabel (.scalar part) h (some source)

/-- The calls for the parts meet a part without a generator if there is one, and fail for nothing
else. -/
theorem unsupported_inTurn_iff (hcount : 1 ≤ count) (hdigits : 1 ≤ digits)
    (hlabel : label.kind ≠ .all) {source : ℕ}
    (h : Serves label count.toNat digits source parts e) :
    (∃ error e', inTurn parts (some label) count digits source e = .error error e' ∧
        error.IsUnsupported) ↔
      ∃ part ∈ parts, e.generators.get? part.kind label = none := by
  induction parts generalizing e with
  | nil => exact iff_of_false (fun ⟨_, _, hfails, _⟩ => nomatch hfails) (by simp)
  | cons part rest ih =>
    unfold inTurn at ih ⊢
    rw [List.mapM_cons]
    cases hget : e.generators.get? part.kind label with
    | none =>
      obtain ⟨registered, hfails⟩ :=
        generate_of_unregistered hcount hdigits hlabel (.scalar part) hget (some source)
      exact iff_of_true ⟨_, e, EStateM.bind_of_error hfails, rfl⟩
        ⟨part, List.mem_cons_self, hget⟩
    | some generator =>
      -- the part gets its values, and what is registered stays the same for the others
      obtain ⟨values, e₁, hvalues, hrest⟩ := h generator hget
      have hrules := ((moves_ofScalar _ _ _ _ _ _).ends e).of_ok hvalues
      have hpart : generate (.scalar part) (some label) (some count) (some digits) (some source) e =
          .ok (values, label) e₁ := by
        rw [generate_part hcount hdigits hlabel hget]
        exact EStateM.bind_of_ok hvalues
      simp only [EStateM.bind_of_ok hpart, bind_pure_eq_error, ih hrest, hrules.generators,
        List.exists_mem_cons_iff, hget, reduceCtorEq, false_or]

/-! ## Defaults -/

omit [Scalar α] in
/-- The default of a part is registered from the start. -/
theorem exists_default_part (h : part.IsBuiltin) : ∃ (label : Label) (generator : Generator α),
    part.defaultMethod = .ok (some label) ∧ label.kind ≠ .all ∧
      GeneratorRegistry.builtin.get? part.kind label = some generator ∧
      ∀ f, generator ≠ .custom f := by
  cases part with
  | interval lower upper => exact ⟨.uniformGrid, .grid, rfl, by decide, rfl, fun _ => nofun⟩
  | distribution d => exact ⟨.weightedSample, .samples, rfl, by decide, rfl, fun _ => nofun⟩
  | custom _ _ _ => exact h.elim
  | unspecified => exact h.elim

/-- A call for a part that brings its own default meets a generator. -/
theorem avoids_part (hcount : 1 ≤ count) (hdigits : 1 ≤ digits) (he : e.generators = .builtin)
    (hpart : part.IsBuiltin) (source : ℕ) :
    Avoids Error.IsUnsupported
      (generate (.scalar part) none (some count) (some digits) (some source)) e := by
  obtain ⟨label, generator, hdefault, hlabel, hget, hown⟩ := exists_default_part hpart
  intro error e' hfails
  rw [generate_of_default (.scalar part) hdefault hlabel (by simp),
    generate_part hcount hdigits hlabel (he ▸ hget), bind_pure_eq_error] at hfails
  exact avoids_ofScalar (·.not_isUnsupported) hown _ _ _ _ _ error e' hfails

theorem avoids_stacked (hcount : 1 ≤ count) (hdigits : 1 ≤ digits) (he : e.generators = .builtin)
    (hparts : ∀ part ∈ parts, part.IsBuiltin) (source : Option ℕ) (label : Label) :
    Avoids Error.IsUnsupported (stacked parts none count digits source label) e := by
  -- the parts before change sources only, so that every part finds the registry as it was
  refine (avoids_resolveSource (·.not_isUnsupported) source).bind_of_ends
    ((moves_resolveSource source).ends e) fun number e₁ h₁ =>
      Avoids.bind ?_ fun _ _ => avoids_pure _
  refine Avoids.mapM_of_moves (R := SameRules) (fun _ => moves_generate _ _ _ _ _)
    fun part hpart e₂ h₂ => ?_
  exact avoids_part hcount hdigits ((h₂.generators.trans h₁.generators).trans he)
    (hparts part hpart) number

/-- If all parts have the same default, asking for it is the same as leaving it to them. -/
theorem inTurn_of_default (hlabel : label.kind ≠ .all)
    (h : ∀ part ∈ parts, part.defaultMethod = .ok (some label)) (source : ℕ) :
    inTurn parts (some label) count digits source = inTurn parts none count digits source := by
  unfold inTurn
  induction parts with
  | nil => rfl
  | cons part rest ih =>
    have hrest := ih fun other hother => h other (List.mem_cons_of_mem _ hother)
    rw [List.mapM_cons, List.mapM_cons, hrest]
    have hnone : ∀ asked ∈ (none : Option Label), asked.kind = .all := by simp
    rw [generate_of_default (.scalar part) (h part List.mem_cons_self) hlabel hnone]

omit [Scalar α] in
theorem default_of_kind (h : part.IsBuiltin) :
    (part.kind = intervalKind → part.defaultMethod = .ok (some .uniformGrid)) ∧
      (part.kind = univariateKind → part.defaultMethod = .ok (some .weightedSample)) := by
  cases part with
  | interval lower upper =>
    exact ⟨fun _ => rfl, fun h => absurd h (by decide : intervalKind ≠ univariateKind)⟩
  | distribution d =>
    exact ⟨fun h => absurd h (by decide : univariateKind ≠ intervalKind), fun _ => rfl⟩
  | custom _ _ _ => exact h.elim
  | unspecified => exact h.elim

/-- The default of a collection is registered from the start and leaves the method to each part. -/
theorem exists_default_collection (hparts : ∀ part ∈ parts, part.IsBuiltin) : ∃ label,
    (Domain.collection parts).defaultMethod = .ok (some label) ∧ label.kind ≠ .all ∧
      (GeneratorRegistry.builtin : GeneratorRegistry α).get? collectionKind label ≠ none ∧
      ∀ count digits source, inTurn parts (if label = .mixture then none else some label) count
        digits source = inTurn parts none count digits source := by
  dsimp only [Domain.defaultMethod]
  -- with parts of one kind, the method of the collection is the default of each of them
  by_cases hintervals : parts.all (·.kind == intervalKind) = true
  · rw [if_pos hintervals]
    refine ⟨.uniformGrid, rfl, by decide, nofun, fun _ _ _ => inTurn_of_default (by decide) ?_ _⟩
    rw [List.all_eq_true] at hintervals
    exact fun part hpart =>
      (default_of_kind (hparts part hpart)).1 (eq_of_beq (hintervals part hpart))
  rw [if_neg hintervals]
  by_cases hdistributions : parts.all (·.kind == univariateKind) = true
  · rw [if_pos hdistributions]
    refine ⟨.weightedSample, rfl, by decide, nofun, fun _ _ _ => inTurn_of_default (by decide) ?_ _⟩
    rw [List.all_eq_true] at hdistributions
    exact fun part hpart =>
      (default_of_kind (hparts part hpart)).2 (eq_of_beq (hdistributions part hpart))
  · rw [if_neg hdistributions]
    exact ⟨.mixture, rfl, by decide, nofun, fun _ _ _ => rfl⟩

/-- The rows of a collection are what the calls for its parts return. -/
theorem stacks_of_stacked (he : e.generators = .builtin) {method : Option Label}
    {source : Option ℕ} {label' : Label} {values : Tensor α} {e' : Environment α}
    (h : stacked parts method count digits source label e = .ok (values, label') e') :
    ∃ number e₁, resolveSource source e = .ok number e₁ ∧
      Stacks parts method count digits number e₁ values := by
  obtain ⟨number, e₁, hsource, h⟩ := EStateM.bind_eq_ok.1 h
  obtain ⟨found, e₂, hfound, h⟩ := EStateM.bind_eq_ok.1 h
  have hrules := ((moves_resolveSource source).ends e).of_ok hsource
  cases h
  exact ⟨number, e₁, hsource, stacks_of_inTurn (hrules.generators.trans he) hfound⟩

/-- With a method, a call for a collection fails for want of a generator exactly if the method is
not registered for the collection or for a part, as long as no generator fails itself. -/
theorem unsupported_collection_iff (hcount : 1 ≤ count) (hdigits : 1 ≤ digits)
    (he : e.generators = .builtin) (hlabel : label.kind ≠ .all) (hmixture : label ≠ .mixture)
    {source : Option ℕ} {number : ℕ} {e₁ : Environment α}
    (hsource : resolveSource source e = .ok number e₁)
    (hserves : Serves label count.toNat digits number parts e₁) :
    (∃ error e', generate (.collection parts) (some label) (some count) (some digits) source e =
        .error error e' ∧ error.IsUnsupported) ↔
      e.generators.get? collectionKind label = none ∨
        ∃ part ∈ parts, e.generators.get? part.kind label = none := by
  -- the collection is looked up before its parts are
  by_cases hregistered : e.generators.get? collectionKind label = none
  · obtain ⟨registered, hfails⟩ :=
      generate_of_unregistered hcount hdigits hlabel (.collection parts) hregistered source
    exact iff_of_true ⟨_, e, hfails, rfl⟩ (.inl hregistered)
  · have hrules := ((moves_resolveSource source).ends e).of_ok hsource
    rw [or_iff_right hregistered, generate_collection hcount hdigits he hlabel hregistered,
      if_neg hmixture, stacked, EStateM.bind_of_ok hsource, ← hrules.generators,
      ← unsupported_inTurn_iff hcount hdigits hlabel hserves]
    simp only [bind_pure_eq_error]

end Generation

open Environment Generation

variable {α : Type} [Scalar α]

/-- Without a method, or with the selector of all, a call for a collection of intervals and
distributions never fails for want of a generator, and is the calls for its parts without a method,
one after the other. With a method other than a mixture it is the calls for the parts with that
method, and as long as no generator fails itself, it fails for want of a generator exactly if the
method is not registered for collections or for a part. -/
theorem generated_in_turn {e : Environment α} (he : e.generators = .builtin)
    {parts : List (ScalarDomain α)} (hparts : ∀ part ∈ parts, part.IsBuiltin) {count digits : ℤ}
    (hcount : 1 ≤ count) (hdigits : 1 ≤ digits) (source : Option ℕ) :
    (∀ method : Option Label, (∀ asked ∈ method, asked.kind = .all) →
      let call := generate (.collection parts) method (some count) (some digits) source
      Avoids Error.IsUnsupported call e ∧
      (∃ label, call e = stacked parts none count digits source label e) ∧
      ∀ values label e', call e = .ok (values, label) e' →
        ∃ number e₁, resolveSource source e = .ok number e₁ ∧
          Stacks parts none count digits number e₁ values) ∧
    ∀ label : Label, label.kind ≠ .all → label ≠ .mixture →
      let call := generate (.collection parts) (some label) (some count) (some digits) source
      (e.generators.get? collectionKind label ≠ none →
        call e = stacked parts (some label) count digits source label e) ∧
      (∀ values label' e', call e = .ok (values, label') e' →
        ∃ number e₁, resolveSource source e = .ok number e₁ ∧
          Stacks parts (some label) count digits number e₁ values) ∧
      ∀ number e₁, resolveSource source e = .ok number e₁ →
        Serves label count.toNat digits number parts e₁ →
        ((∃ error e', call e = .error error e' ∧ error.IsUnsupported) ↔
          e.generators.get? collectionKind label = none ∨
            ∃ part ∈ parts, e.generators.get? part.kind label = none) := by
  refine ⟨fun method hmethod => ?_, fun label hlabel hmixture => ?_⟩
  · obtain ⟨label, hdefault, hlabel, hregistered, hturns⟩ := exists_default_collection hparts
    have hrun : generate (.collection parts) method (some count) (some digits) source e =
        stacked parts none count digits source label e := by
      rw [generate_of_default (.collection parts) hdefault hlabel hmethod,
        generate_collection hcount hdigits he hlabel (he ▸ hregistered)]
      simp only [stacked, hturns]
    refine ⟨fun error e' hfails => ?_, ⟨label, hrun⟩, fun values label' e' hvalues => ?_⟩
    · exact avoids_stacked hcount hdigits he hparts source label error e' (hrun ▸ hfails)
    · exact stacks_of_stacked he (hrun ▸ hvalues)
  · have hrun : e.generators.get? collectionKind label ≠ none →
        generate (.collection parts) (some label) (some count) (some digits) source e =
          stacked parts (some label) count digits source label e := fun hregistered => by
      rw [generate_collection hcount hdigits he hlabel hregistered, if_neg hmixture]
    refine ⟨hrun, fun values label' e' hvalues => ?_, fun number e₁ hsource hserves =>
      unsupported_collection_iff hcount hdigits he hlabel hmixture hsource hserves⟩
    -- a call that returned values had a method that is registered
    refine stacks_of_stacked he (hrun (fun hregistered => ?_) ▸ hvalues)
    obtain ⟨registered, hfails⟩ :=
      generate_of_unregistered hcount hdigits hlabel (.collection parts) hregistered source
    cases hfails.symm.trans hvalues

/-- A distribution with recorded samples and an interval: by default the first gets its samples and
the other one a grid; samples are not registered for intervals. -/
theorem generated_in_turn_mixed :
    let e : Environment ℚ := { sources := [.replay [1 / 4, 1 / 2] 0], tapes := [0] }
    let parts : List (ScalarDomain ℚ) :=
      [.distribution ⟨0, 10, .recorded [[3], [5]] 0⟩, .interval 0 8]
    let call (method : Option Label) :=
      generate (.collection parts) method (some 2) (some 3) (some 0)
    e.generators = .builtin ∧ (∀ part ∈ parts, part.IsBuiltin) ∧
      (∃ found e', call none e = .ok found e' ∧ found.2 = .mixture ∧
        found.1.entries = [3, 5, 0, 8] ∧ Stacks parts none 2 3 0 e found.1) ∧
      (∃ found e', call (some .monteCarlo) e = .ok found e' ∧ found.1.entries = [3, 5, 2, 4] ∧
        Stacks parts (some .monteCarlo) 2 3 0 e found.1) ∧
      Serves .weightedSample 2 3 0 parts e ∧
      ∃ error e', call (some .weightedSample) e = .error error e' ∧ error.IsUnsupported := by
  intro e parts call
  have he : e.generators = .builtin := rfl
  have hparts : ∀ part ∈ parts, part.IsBuiltin := by
    intro part hpart
    simp only [parts, List.mem_cons, List.not_mem_nil, or_false] at hpart
    rcases hpart with rfl | rfl <;> exact trivial
  obtain ⟨hdefault, hmethod⟩ :=
    generated_in_turn he hparts (by decide : (1 : ℤ) ≤ 2) (by decide : (1 : ℤ) ≤ 3) (some 0)
  have hmixed : Ends (call none) e
      (fun found _ => found.2 = .mixture ∧ found.1.entries = [3, 5, 0, 8]) fun _ => False := by
    decide +kernel
  have hsampled : Ends (call (some .monteCarlo)) e
      (fun found _ => found.1.entries = [3, 5, 2, 4]) fun _ => False := by
    decide +kernel
  have hserved : Ends (ofScalar .samples (.distribution ⟨0, 10, .recorded [[3], [5]] 0⟩)
      .weightedSample 2 3 0) e (fun values _ => values.entries = [3, 5]) fun _ => False := by
    decide +kernel
  obtain ⟨⟨mixed, label⟩, e₁, hrun, hlabel, hentries⟩ := hmixed.exists_ok
  obtain ⟨⟨sampled, label'⟩, e₁', hrun', hentries'⟩ := hsampled.exists_ok
  -- the interval has no generator for the method, so only the first part has to serve
  have hserves : Serves .weightedSample 2 3 0 parts e := by
    obtain ⟨values, e₂, hvalues, -⟩ := hserved.exists_ok
    have hrules := ((moves_ofScalar _ _ _ _ _ _).ends e).of_ok hvalues
    intro generator hgenerator
    cases hgenerator
    refine ⟨values, e₂, hvalues, fun generator hgenerator => ?_⟩
    rw [hrules.generators] at hgenerator
    cases hgenerator
  refine ⟨he, hparts, ⟨_, e₁, hrun, hlabel, hentries, ?_⟩, ⟨_, e₁', hrun', hentries', ?_⟩,
    hserves, ?_⟩
  · obtain ⟨number, _, hsource, hstacks⟩ := (hdefault none (by simp)).2.2 mixed label e₁ hrun
    cases hsource
    exact hstacks
  · obtain ⟨number, _, hsource, hstacks⟩ :=
      (hmethod .monteCarlo (by decide) (by decide)).2.1 sampled label' e₁' hrun'
    cases hsource
    exact hstacks
  · exact ((hmethod .weightedSample (by decide) (by decide)).2.2 0 e rfl hserves).2
      (.inr ⟨.interval 0 8, by simp [parts], rfl⟩)

end Discretization
