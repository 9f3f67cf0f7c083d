import Discretization.Generation
import Discretization.Proofs.Changes
import Discretization.Proofs.Numbers

/-!
# Generated Supports

Generating supports moves random sources and the journal and leaves settings and generators alone.
Under the rules that the library enforces, it gives at least one value.

## Main definitions

* `Environment.SameRules`: two environments with the same settings and generators;
* `Generator.Delivers`: a generator gives as many values as asked for;
* `Environment.Supplies`: an environment whose generators do, and whose preferred number of supports
  is positive.

## Main results

* `Generation.moves_generate`: generating keeps the settings and generators;
* `Generation.ends_generate`: a scalar domain gets as many values as asked for;
* `Generation.generate_of_registered`: with a method, the registered generator does the rest;
* `Generation.ends_defaultCount`: the default number of supports is positive.
-/

namespace Discretization

/-- A generator that is found is registered. -/
theorem GeneratorRegistry.mem_of_get? {α : Type} {registry : GeneratorRegistry α} {kind : String}
    {label : Label} {generator : Generator α} (h : registry.get? kind label = some generator) :
    ((kind, label), generator) ∈ registry := by
  obtain ⟨⟨key, generator'⟩, hfind, rfl⟩ := Option.map_eq_some_iff.1 h
  obtain rfl : key = (kind, label) := by simpa using List.find?_some hfind
  exact List.mem_of_find?_eq_some hfind

/-- A list of the given length. -/
def Tensor.IsVector {α : Type} (t : Tensor α) (length : ℕ) : Prop :=
  t.shape = [length] ∧ t.entries.length = length

/-- For a domain with one parameter, of the given kind, the generator gives as many values as asked
for. Samples that are taken column by column may be empty; a function that a caller registers is
asked to keep to the number. -/
def Generator.Delivers {α : Type} (kind : String) : Generator α → Prop
  | .columns => kind ≠ univariateKind
  | .custom f => ∀ (domain : ScalarDomain α) method count digits source found, domain.kind = kind →
      f (.scalar domain) method count digits source = .ok found → found.1.IsVector count
  | _ => True

namespace Environment

variable {α : Type}

/-- The environments have the same settings and generators. -/
structure SameRules (e e' : Environment α) : Prop where
  settings : e'.settings = e.settings
  generators : e'.generators = e.generators

instance : IsPreorder (Environment α) SameRules where
  refl _ := ⟨rfl, rfl⟩
  trans _ _ _ h h' := ⟨h'.settings.trans h.settings, h'.generators.trans h.generators⟩

/-- The generators for a method give as many values as asked for. -/
def Delivers (e : Environment α) (label : Label) : Prop :=
  ∀ kind generator, e.generators.get? kind label = some generator → generator.Delivers kind

/-- The preferred number of supports is positive, and all generators give as many values as asked
for. -/
structure Supplies (e : Environment α) : Prop where
  count : ∀ n, e.settings.count = some n → 0 < n
  delivers : ∀ label, e.Delivers label

theorem Supplies.of_sameRules {e e' : Environment α} (h : e.Supplies) (hs : SameRules e e') :
    e'.Supplies :=
  ⟨by rw [hs.settings]; exact h.count,
    fun label kind generator => by rw [hs.generators]; exact h.delivers label kind generator⟩

theorem delivers_of_builtin {e : Environment α} (he : e.generators = .builtin) (label : Label) :
    e.Delivers label := by
  intro kind generator hget
  rw [he] at hget
  have hmem := GeneratorRegistry.mem_of_get? hget
  simp only [GeneratorRegistry.builtin, List.mem_cons, Prod.mk.injEq, List.not_mem_nil,
    or_false] at hmem
  -- columns are taken of multivariate distributions only
  rcases hmem with h | h | h | h | h | h | h | h | h <;> obtain ⟨⟨rfl, -⟩, rfl⟩ := h <;>
    simp [Generator.Delivers, multivariateKind, univariateKind]

theorem supplies_default : ({} : Environment α).Supplies where
  count _ h := by cases h
  delivers := delivers_of_builtin rfl

section Actions

variable {β : Type}

theorem moves_check (result : Except (Error α) β) :
    Moves SameRules (EnvironmentAction.check result) := by
  cases result with
  | ok b => exact .pure b
  | error e => exact .throw e

/-- A change of anything but settings and generators. -/
theorem moves_modify {f : Environment α → Environment α}
    (h : ∀ e, (f e).settings = e.settings ∧ (f e).generators = e.generators) :
    Moves SameRules (modify f : EnvironmentAction α PUnit) :=
  .modify fun e => ⟨(h e).1, (h e).2⟩

theorem moves_log (records : List LogRecord) : Moves SameRules (log (α := α) records) :=
  moves_modify fun _ => ⟨rfl, rfl⟩

theorem moves_defaultCount : Moves SameRules (defaultCount (α := α)) := by
  unfold defaultCount
  refine Moves.get.bind fun _ => ?_
  split
  exact (moves_log _).bind fun _ => .pure _

theorem moves_defaultDigits : Moves SameRules (defaultDigits (α := α)) := by
  unfold defaultDigits
  refine Moves.get.bind fun _ => ?_
  split
  exact (moves_log _).bind fun _ => .pure _

theorem moves_newSource (source : Source α) : Moves SameRules (newSource source) := by
  unfold newSource
  refine Moves.get.bind fun _ => Moves.bind (moves_modify fun _ => ?_) fun _ => .pure _
  exact ⟨rfl, rfl⟩

theorem moves_seededSource (seed : Option Int) :
    Moves SameRules (seededSource (α := α) seed) := by
  unfold seededSource
  split
  · exact Moves.get.bind fun _ => moves_newSource _
  · exact .throw _
  · refine Moves.get.bind fun _ => Moves.bind (moves_modify fun _ => ?_) fun _ =>
      Moves.get.bind fun _ => moves_newSource _
    exact ⟨rfl, rfl⟩

theorem moves_sharedSource : Moves SameRules (sharedSource (α := α)) := by
  unfold sharedSource
  refine Moves.get.bind fun e => ?_
  split
  · exact .pure _
  · refine Moves.get.bind fun _ => (moves_check _).bind fun seed =>
      (moves_seededSource _).bind fun number =>
        Moves.bind (moves_modify fun _ => ?_) fun _ => .pure _
    exact ⟨rfl, rfl⟩

theorem moves_resolveSource (source : Option Nat) :
    Moves SameRules (resolveSource (α := α) source) := by
  unfold resolveSource
  split
  · exact .pure _
  · exact moves_sharedSource

theorem moves_drawing (source : Nat) (f : Source α → Except (Error α) (β × Source α)) :
    Moves SameRules (drawing source f) := by
  unfold drawing
  refine Moves.get.bind fun _ => (moves_check _).bind fun _ =>
    Moves.bind (moves_modify fun _ => ?_) fun _ => .pure _
  exact ⟨rfl, rfl⟩

variable [Scalar α]

theorem moves_uniform (source : Nat) (lower upper : α) (count : Nat) :
    Moves SameRules (uniform source lower upper count) :=
  moves_drawing _ _

theorem moves_sample (d : Distribution α) (count source : Nat) :
    Moves SameRules (sample d count source) := by
  unfold sample
  split
  · refine Moves.get.bind fun _ => Moves.bind (moves_modify fun _ => ?_) fun _ => .pure _
    exact ⟨rfl, rfl⟩
  · exact (moves_uniform _ _ _ _).bind fun _ => .pure _

end Actions

end Environment

namespace Generation

open Environment

variable {α : Type} [Scalar α]

omit [Scalar α] in
theorem moves_lookup (typeName kind : String) (method : Option Label) :
    Moves SameRules (lookup (α := α) typeName kind method) := by
  unfold lookup
  refine Moves.get.bind fun _ => ?_
  dsimp only
  split
  · exact .pure _
  · exact .throw _

theorem moves_univariate (d : Option (Distribution α)) (count : Nat) (digits : Int)
    (source : Nat) : Moves SameRules (univariate d count digits source) := by
  unfold univariate
  split
  · exact .throw _
  · refine (moves_sample _ _ _).bind fun samples => ?_
    dsimp only
    split
    · exact (Moves.throw _).bind fun _ => moves_check _
    · exact moves_check _

theorem moves_multivariate (d : Option (Distribution α)) (count : Nat) (digits : Int)
    (source : Nat) : Moves SameRules (multivariate d count digits source) := by
  unfold multivariate
  split
  · exact .throw _
  · refine (moves_sample _ _ _).bind fun samples => ?_
    dsimp only
    split
    · exact (Moves.throw _).bind fun _ => moves_check _
    · exact moves_check _

omit [Scalar α] in
theorem moves_warnUnweighted : Moves SameRules (warnUnweighted (α := α)) := by
  refine Moves.get.bind fun e => ?_
  split
  · exact .pure _
  · refine Moves.bind (moves_modify fun _ => ?_) fun _ => moves_modify fun _ => ?_
    · exact ⟨rfl, rfl⟩
    · exact ⟨rfl, rfl⟩

theorem moves_ofScalar (generator : Generator α) (domain : ScalarDomain α) (method : Label)
    (count : Nat) (digits : Int) (source : Nat) :
    Moves SameRules (ofScalar generator domain method count digits source) := by
  unfold ofScalar
  split
  · exact (moves_check _).bind fun _ => moves_check _
  · exact (moves_check _).bind fun _ => (moves_uniform _ _ _ _).bind fun _ => moves_check _
  · exact moves_univariate _ _ _ _
  · exact moves_warnUnweighted.bind fun _ => moves_univariate _ _ _ _
  · exact moves_multivariate _ _ _ _
  · exact .throw _
  · exact moves_drawing _ _

omit [Scalar α] in
/-- The method asked for, or the default one if none or any is asked for. -/
theorem moves_method {β : Type} (default : Except (Error α) (Option Label))
    {k : Option Label → EnvironmentAction α β} (hk : ∀ method, Moves SameRules (k method))
    (method : Option Label) :
    Moves SameRules (match method with
      | some label =>
        if label.kind = .all then EnvironmentAction.check default >>= k
        else pure (some label) >>= k
      | none => EnvironmentAction.check default >>= k) := by
  cases method with
  | some label => exact Moves.ite ((moves_check _).bind hk) ((Moves.pure _).bind hk)
  | none => exact (moves_check _).bind hk

theorem moves_scalarValues (domain : ScalarDomain α) (method : Option Label) (count : Nat)
    (digits : Int) (source : Nat) :
    Moves SameRules (scalarValues domain method count digits source) :=
  moves_method domain.defaultMethod
    (fun _ => (moves_lookup _ _ _).bind fun _ => moves_ofScalar _ _ _ _ _ _) method

theorem moves_ofDomain (generator : Generator α) (domain : Domain α) (method : Label)
    (count : Nat) (digits : Int) (source : Nat) :
    Moves SameRules (ofDomain generator domain method count digits source) := by
  unfold ofDomain
  split
  · exact moves_ofScalar _ _ _ _ _ _
  · exact moves_drawing _ _
  · exact moves_multivariate _ _ _ _
  · exact (Moves.mapM fun _ => (moves_scalarValues _ _ _ _ _).bind fun _ => moves_check _).bind
      fun _ => .pure _
  · exact (moves_check _).bind fun _ => .throw _
  · exact (moves_check _).bind fun _ => .throw _
  · exact .throw _
  · exact .throw _

/-- Generating values keeps the settings and generators. -/
theorem moves_generate (domain : Domain α) (method : Option Label) (count digits : Option Int)
    (source : Option Nat) : Moves SameRules (generate domain method count digits source) := by
  refine moves_method domain.defaultMethod (fun method => ?_) method
  -- what follows the checks, once the numbers are known
  have tail : ∀ count digits : Int, Moves SameRules (do
      let found ← lookup domain.typeName domain.kind method
      let source ← resolveSource source
      let values ← ofDomain found.1 domain found.2 count.toNat digits source
      return (values, found.2)) := fun count digits =>
    (moves_lookup _ _ _).bind fun _ => (moves_resolveSource _).bind fun _ =>
      (moves_ofDomain _ _ _ _ _ _).bind fun _ => .pure _
  dsimp only at tail ⊢
  -- each check throws or falls through to the same rest
  have checked : ∀ count digits : Int, Moves SameRules (do
      if count < 1 then throw (.supportCount count)
      if digits < 1 then throw (.supportDigits digits)
      let found ← lookup domain.typeName domain.kind method
      let source ← resolveSource source
      let values ← ofDomain found.1 domain found.2 count.toNat digits source
      return (values, found.2)) := by
    intro count digits
    dsimp only
    split
    · refine (Moves.throw _).bind fun _ => ?_
      split
      · exact (Moves.throw _).bind fun _ => tail count digits
      · exact tail count digits
    · split
      · exact (Moves.throw _).bind fun _ => tail count digits
      · exact tail count digits
  dsimp only at checked
  -- what was not given is read from the settings, which changes nothing
  cases count <;> cases digits <;> simp only [pure_bind]
  · exact moves_defaultCount.bind fun _ => moves_defaultDigits.bind fun _ => checked _ _
  · exact moves_defaultCount.bind fun _ => checked _ _
  · exact moves_defaultDigits.bind fun _ => checked _ _
  · exact checked _ _

/-! ## How many values are generated -/

theorem length_grid (first last : α) (count : Nat) : (grid first last count).length = count := by
  unfold grid
  dsimp only
  split <;> simp

omit [Scalar α] in
@[simp]
theorem ends_check {β : Type} {e : Environment α} {ok : β → Environment α → Prop}
    {fail : Environment α → Prop} (result : Except (Error α) β) :
    Ends (EnvironmentAction.check result) e ok fail ↔
      (∀ b, result = .ok b → ok b e) ∧ (∀ error, result = .error error → fail e) := by
  cases result <;> simp [EnvironmentAction.check]

theorem length_draw (source : Source α) (count : Nat) :
    (source.draw count).1.length = count := by
  induction count generalizing source with
  | zero => rfl
  | succ n ih => rw [Source.draw, List.length_cons, ih]

omit [Scalar α] in
/-- What is made of a source has what the function says of its results. -/
theorem ends_drawing {β : Type} (e : Environment α) (source : Nat)
    {f : Source α → Except (Error α) (β × Source α)} {P : β → Prop}
    (h : ∀ s found, f s = .ok found → P found.1) :
    Ends (drawing source f) e (fun b _ => P b) fun _ => True := by
  simp only [drawing, ends_bind, ends_get, ends_check, ends_modify, ends_pure, implies_true,
    and_true]
  exact fun found hfound => h _ found hfound

theorem ends_uniform (e : Environment α) (source : Nat) (lower upper : α) (count : Nat) :
    Ends (uniform source lower upper count) e (fun xs _ => xs.length = count)
      fun _ => True := by
  refine ends_drawing e source fun s drawn h => ?_
  rw [Source.uniform] at h
  split at h
  · cases h
    rw [List.length_map, length_draw]
  · cases h

theorem ends_sample (e : Environment α) (d : Distribution α) (count source : Nat) :
    Ends (sample d count source) e (fun samples _ => samples.length = count)
      fun _ => True := by
  unfold sample
  split
  · simp only [ends_bind, ends_get, ends_modify, ends_pure, List.length_map, List.length_range]
  · rw [ends_bind]
    refine (ends_uniform e _ _ _ _).mono (fun _ _ _ => ?_) fun _ _ => trivial
    simp

/-- Rounding keeps the number of values. -/
theorem isVector_of_round {digits : Int} {xs : List α} {rounded : Tensor α} {length : ℕ}
    (hlength : xs.length = length) (h : (Tensor.vector xs).round digits = .ok rounded) :
    rounded.IsVector length := by
  obtain ⟨entries, hentries, h⟩ := Except.bind_eq_ok.1 h
  rw [Except.pure_eq_ok] at h
  subst h hlength
  exact ⟨rfl, length_of_roundList hentries⟩

/-- A generator of a sequence keeps to the number that it is asked for. -/
theorem delivers_sequence (kind : String) (first step : α) :
    (Generator.sequence first step).Delivers kind := by
  intro domain method count digits source found _ hfound
  obtain ⟨values, hvalues, hfound⟩ := Except.bind_eq_ok.1 hfound
  cases hfound
  exact isVector_of_round (by simp) hvalues

theorem ends_univariate (e : Environment α) (d : Option (Distribution α)) (count : Nat)
    (digits : Int) (source : Nat) :
    Ends (univariate d count digits source) e (fun t _ => t.IsVector count) fun _ => True := by
  unfold univariate
  split
  · simp
  · rw [ends_bind]
    refine (ends_sample e _ _ _).mono (fun samples e' hcount => ?_) fun _ _ => trivial
    dsimp only
    rw [ends_ite]
    refine ⟨fun _ => by simp, fun hall => ?_⟩
    rw [ends_check]
    refine ⟨fun t ht => ?_, fun _ _ => trivial⟩
    have hone : ∀ xs ∈ samples, xs.length = 1 := by simpa using hall
    -- one number per sample, as the check has passed
    refine isVector_of_round ?_ ht
    rw [List.length_flatten, List.map_congr_left hone]
    simp [hcount]

/-- A scalar domain gets as many values as asked for from a generator that keeps to the number. -/
theorem ends_ofScalar (e : Environment α) {generator : Generator α} {domain : ScalarDomain α}
    (h : generator.Delivers domain.kind) (method : Label) (count : Nat) (digits : Int)
    (source : Nat) :
    Ends (ofScalar generator domain method count digits source) e (fun t _ => t.IsVector count)
      fun _ => True := by
  cases generator with
  | grid =>
    simp only [ofScalar, ends_bind, ends_check, implies_true, and_true]
    exact fun bounds _ t ht => isVector_of_round (length_grid _ _ _) ht
  | monteCarlo =>
    simp only [ofScalar, ends_bind, ends_check, implies_true, and_true]
    intro bounds _
    exact (ends_uniform e _ _ _ _).mono (fun xs e' hcount t ht => isVector_of_round hcount ht)
      fun _ _ => trivial
  | samples => exact ends_univariate e _ _ _ _
  | unweightedSamples =>
    rw [ofScalar, ends_bind]
    exact (moves_warnUnweighted.ends e).mono (fun _ e' _ => ends_univariate e' _ _ _ _)
      fun _ _ => trivial
  | columns =>
    -- only univariate distributions are distributions among the scalar domains
    cases domain with
    | distribution d => exact absurd rfl h
    | _ => exact (ends_throw _).2 trivial
  | parts => exact (ends_throw _).2 trivial
  | custom f => exact ends_drawing e source fun s found hfound => h _ _ _ _ _ _ rfl hfound

omit [Scalar α] in
/-- The generator that is found is registered for the kind and the method. -/
theorem ends_lookup (e : Environment α) (typeName kind : String) (method : Option Label) :
    Ends (lookup (α := α) typeName kind method) e
      (fun found e' => e' = e ∧ e.generators.get? kind found.2 = some found.1) fun _ => True := by
  unfold lookup
  rw [ends_bind, ends_get]
  dsimp only
  split
  · rename_i found hfound
    obtain ⟨label, -, h⟩ := Option.bind_eq_some_iff.1 hfound
    obtain ⟨generator, hg, rfl⟩ := Option.map_eq_some_iff.1 h
    exact (ends_pure _).2 ⟨rfl, hg⟩
  · exact (ends_throw _).2 trivial

omit [Scalar α] in
/-- The method asked for, or the default one if none or any is asked for. -/
theorem ends_method {β : Type} {e : Environment α} {ok : β → Environment α → Prop}
    {fail : Environment α → Prop} (default : Except (Error α) (Option Label))
    {k : Option Label → EnvironmentAction α β} (hk : ∀ method, Ends (k method) e ok fail)
    (hfail : fail e) (method : Option Label) :
    Ends (match method with
      | some label =>
        if label.kind = .all then EnvironmentAction.check default >>= k
        else pure (some label) >>= k
      | none => EnvironmentAction.check default >>= k) e ok fail := by
  have hdefault : Ends (EnvironmentAction.check default >>= k) e ok fail :=
    (ends_bind _ _).2 ((ends_check _).2 ⟨fun method _ => hk method, fun _ _ => hfail⟩)
  cases method with
  | some label => exact (ends_ite _ _).2 ⟨fun _ => hdefault, fun _ => hk (some label)⟩
  | none => exact hdefault

/-- A scalar domain gets as many values as asked for, if the generators for the method keep to the
number. -/
theorem ends_lookup_ofDomain (e : Environment α) (domain : ScalarDomain α) (method : Option Label)
    (count : Nat) (digits : Int) (source : Option Nat) :
    Ends (do
        let found ← lookup (Domain.scalar domain).typeName (Domain.scalar domain).kind method
        let source ← resolveSource source
        let values ← ofDomain found.1 (.scalar domain) found.2 count digits source
        return (values, found.2)) e
      (fun found _ => e.Delivers found.2 → found.1.IsVector count) fun _ => True := by
  rw [ends_bind]
  refine (ends_lookup e _ _ method).mono ?_ fun _ _ => trivial
  rintro ⟨generator, label⟩ _ ⟨rfl, hregistered⟩
  rw [ends_bind]
  refine ((moves_resolveSource source).ends _).mono (fun source e' _ => ?_) fun _ _ => trivial
  rw [ends_bind]
  by_cases hdelivers : generator.Delivers domain.kind
  · exact (ends_ofScalar e' hdelivers _ _ _ _).mono (fun t _ ht => (ends_pure _).2 fun _ => ht)
      fun _ _ => trivial
  · exact .of_forall (fun t e'' => (ends_pure _).2 fun h => absurd (h _ _ hregistered) hdelivers)
      fun _ => trivial

/-- For a scalar domain values are generated, as many as asked for, if the generators for the method
keep to the number. -/
theorem ends_generate (e : Environment α) (domain : ScalarDomain α) (method : Option Label)
    (count digits : Option Int) (source : Option Nat) :
    Ends (generate (.scalar domain) method count digits source) e
      (fun found _ => e.Delivers found.2 → found.1.entries ≠ [] ∧
        ∀ asked, count = some asked → found.1.IsVector asked.toNat) fun _ => True := by
  -- the count is the one asked for, or comes from the settings
  have made : ∀ (e' : Environment α), SameRules e e' → ∀ method (made digits : Int),
      (∀ asked, count = some asked → made = asked) → Ends (do
        if made < 1 then throw (.supportCount made)
        if digits < 1 then throw (.supportDigits digits)
        let found ← lookup (Domain.scalar domain).typeName (Domain.scalar domain).kind method
        let source ← resolveSource source
        let values ← ofDomain found.1 (.scalar domain) found.2 made.toNat digits source
        return (values, found.2)) e'
        (fun found _ => e.Delivers found.2 → found.1.entries ≠ [] ∧
          ∀ asked, count = some asked → found.1.IsVector asked.toNat) fun _ => True := by
    intro e' hrules method made digits hmade
    dsimp only
    rw [ends_ite]
    refine ⟨fun _ => (ends_bind _ _).2 ((ends_throw _).2 trivial), fun hcount => ?_⟩
    rw [ends_ite]
    refine ⟨fun _ => (ends_bind _ _).2 ((ends_throw _).2 trivial), fun _ => ?_⟩
    refine (ends_lookup_ofDomain e' domain method made.toNat digits source).mono ?_ fun _ h => h
    intro found _ hvector hdelivers
    have hvector := hvector fun kind generator => hrules.generators ▸ hdelivers kind generator
    refine ⟨fun hnil => ?_, fun asked hasked => hmade asked hasked ▸ hvector⟩
    have hlength := hvector.2
    rw [hnil, List.length_nil] at hlength
    omega
  dsimp only at made
  refine ends_method domain.defaultMethod (fun method => ?_) trivial method
  cases count <;> cases digits <;> simp only [pure_bind]
  · rw [ends_bind]
    refine (moves_defaultCount.ends e).mono (fun count e₁ h₁ => ?_) fun _ _ => trivial
    rw [ends_bind]
    exact (moves_defaultDigits.ends e₁).mono
      (fun digits e₂ h₂ => made e₂ (trans_of SameRules h₁ h₂) _ _ _ (by simp)) fun _ _ => trivial
  · rw [ends_bind]
    exact (moves_defaultCount.ends e).mono (fun count e₁ h₁ => made e₁ h₁ _ _ _ (by simp))
      fun _ _ => trivial
  · rw [ends_bind]
    exact (moves_defaultDigits.ends e).mono (fun digits e₁ h₁ => made e₁ h₁ _ _ _ (by simp))
      fun _ _ => trivial
  · exact made e (refl_of SameRules e) _ _ _ (by simp)

/-! ## Calls with a method -/

section Calls

variable {e : Environment α} {label : Label} {count digits : Int}

omit [Scalar α] in
theorem lookup_of_registered (typeName : String) {kind : String} {generator : Generator α}
    (h : e.generators.get? kind label = some generator) :
    lookup typeName kind (some label) e = .ok (generator, label) e := by
  unfold lookup
  refine (EStateM.bind_of_ok (rfl : (get : EnvironmentAction α _) e = .ok e e)).trans ?_
  dsimp only
  rw [Option.bind_some, h]
  rfl

omit [Scalar α] in
theorem lookup_of_unregistered (typeName : String) {kind : String}
    (h : e.generators.get? kind label = none) :
    ∃ registered, lookup typeName kind (some label) e =
      .error (.noGenerator typeName kind (some label) registered) e := by
  unfold lookup
  refine ⟨((e.generators.methods kind).map Label.text).mergeSort fun a b => decide (a ≤ b),
    (EStateM.bind_of_ok (rfl : (get : EnvironmentAction α _) e = .ok e e)).trans ?_⟩
  dsimp only
  rw [Option.bind_some, h]
  rfl

/-- Without a method, or with the selector of all, a call is one with the default method. -/
theorem generate_of_default (domain : Domain α)
    (hdefault : domain.defaultMethod = .ok (some label)) (hlabel : label.kind ≠ .all)
    {method : Option Label} (hmethod : ∀ asked ∈ method, asked.kind = .all)
    (count digits : Option Int) (source : Option Nat) :
    generate domain method count digits source =
      generate domain (some label) count digits source := by
  have hcheck : (EnvironmentAction.check domain.defaultMethod :
      EnvironmentAction α (Option Label)) = pure (some label) := by
    rw [hdefault]
    rfl
  unfold generate
  cases method with
  | none => simp only [hcheck, hlabel, if_false]
  | some asked => simp only [hcheck, hlabel, hmethod asked rfl, if_true, if_false]

/-- A call with a method finds its generator, then its source, and then generates. -/
theorem generate_of_method (hcount : 1 ≤ count) (hdigits : 1 ≤ digits) (hlabel : label.kind ≠ .all)
    (domain : Domain α) (source : Option Nat) :
    generate domain (some label) (some count) (some digits) source = (do
      let found ← lookup domain.typeName domain.kind (some label)
      let source ← resolveSource source
      let values ← ofDomain found.1 domain found.2 count.toNat digits source
      return (values, found.2)) := by
  have hcount' : ¬ count < 1 := by omega
  have hdigits' : ¬ digits < 1 := by omega
  unfold generate
  simp only [hlabel, hcount', hdigits', if_false, pure_bind]

/-- With a method that is registered, the generator does the rest. -/
theorem generate_of_registered (hcount : 1 ≤ count) (hdigits : 1 ≤ digits)
    (hlabel : label.kind ≠ .all) (domain : Domain α) {generator : Generator α}
    (h : e.generators.get? domain.kind label = some generator) (source : Option Nat) :
    generate domain (some label) (some count) (some digits) source e =
      (resolveSource source >>= fun source =>
        ofDomain generator domain label count.toNat digits source >>= fun values =>
          pure (values, label)) e := by
  rw [generate_of_method hcount hdigits hlabel]
  exact EStateM.bind_of_ok (lookup_of_registered domain.typeName h)

theorem generate_of_unregistered (hcount : 1 ≤ count) (hdigits : 1 ≤ digits)
    (hlabel : label.kind ≠ .all) (domain : Domain α)
    (h : e.generators.get? domain.kind label = none) (source : Option Nat) :
    ∃ registered, generate domain (some label) (some count) (some digits) source e =
      .error (.noGenerator domain.typeName domain.kind (some label) registered) e := by
  obtain ⟨registered, hlookup⟩ := lookup_of_unregistered domain.typeName h
  rw [generate_of_method hcount hdigits hlabel]
  exact ⟨registered, EStateM.bind_of_error hlookup⟩

/-- A call with a method returns supports under that method, as many as asked for if its generators
keep to the number. -/
theorem length_of_generate (domain : ScalarDomain α) (he : e.Delivers label)
    (hcount : 1 ≤ count) (hlabel : label.kind ≠ .all) {source : Option Nat}
    {found : Tensor α × Label} {e' : Environment α}
    (h : generate (.scalar domain) (some label) (some count) (some digits) source e =
      .ok found e') :
    found.2 = label ∧ found.1.entries.length = count.toNat := by
  have hdigits : 1 ≤ digits := by
    by_contra hdigits
    have hcount' : ¬ count < 1 := by omega
    have hdigits' : digits < 1 := by omega
    unfold generate at h
    simp only [hlabel, hcount', hdigits', if_true, if_false, pure_bind] at h
    cases h
  cases hget : e.generators.get? domain.kind label with
  | none =>
    obtain ⟨registered, hfails⟩ :=
      generate_of_unregistered hcount hdigits hlabel (.scalar domain) hget source
    cases hfails.symm.trans h
  | some generator =>
    rw [generate_of_registered hcount hdigits hlabel (.scalar domain) hget] at h
    obtain ⟨number, e₁, -, h⟩ := EStateM.bind_eq_ok.1 h
    obtain ⟨values, e₂, hvalues, h⟩ := EStateM.bind_eq_ok.1 h
    cases h
    exact ⟨rfl, ((ends_ofScalar e₁ (he _ _ hget) _ _ _ _).of_ok hvalues).2⟩

end Calls

omit [Scalar α] in
/-- The number of supports to generate is positive, however it is set. -/
theorem ends_defaultCount {e : Environment α} (he : e.Supplies) :
    Ends (defaultCount (α := α)) e (fun count _ => 0 < count) fun _ => False := by
  have hpos : 0 < e.settings.defaultCount.1 := by
    rw [Settings.defaultCount, Settings.resolve]
    have hset : ∀ n, (e.settings.positive? .supportCount).1 = some n → 0 < n := by
      intro n hn
      rw [Settings.positive?] at hn
      split at hn
      · cases hn
      · split at hn
        · cases hn
        · split at hn
          · cases hn
          · cases hn
            omega
    cases hp : (e.settings.positive? .supportCount).1 with
    | some n => simpa [hp] using hset n hp
    | none =>
      cases hc : e.settings.count with
      | some n => simpa [hp, hc] using he.count n hc
      | none => simp [hp, Settings.standardCount]
  simp only [defaultCount, log, ends_bind, ends_get, ends_modify, ends_pure]
  exact hpos

end Generation

/-- An action on the environment that keeps its rules touches no parameter. -/
theorem Operation.moves_onEnvironment {α β : Type} {p : Ref} {action : EnvironmentAction α β}
    (h : Moves Environment.SameRules action) :
    Moves (Workspace.Touches p) (onEnvironment action) := by
  refine ⟨fun w => ?_⟩
  rw [ends_onEnvironment]
  exact (h.ends w.environment).mono
    (fun _ e he => ⟨.refl w.model, he.settings, he.generators⟩)
    fun e he => ⟨.refl w.model, he.settings, he.generators⟩

end Discretization
