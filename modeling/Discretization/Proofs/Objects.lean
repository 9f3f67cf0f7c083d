import Discretization.Modeling
import Discretization.Proofs.Checks
import Discretization.Proofs.Tables

/-!
# Objects of a Model

When looking up an object succeeds, and which look-ups two models share. Most operations change
supports, flags and stored equations only, so the model before and after has the same objects.

## Main definitions

* `Model.SameObjects`: two models with the same objects, whatever their supports and equations are.

## Main results

* `Model.parameter_eq_ok` and its like for the other kinds: a look-up succeeds just for a reference
  to a live object of its kind;
* `Model.mem_liveRefs`: the live references are those that look-ups succeed for;
* `Model.SameObjects.indexed` and its like: models with the same objects answer alike;
* `Model.exists_of_addDerivative` and its like: what a successful edit checked and changed.
-/

namespace Discretization

namespace Model

variable {α : Type} {m : Model α}

/-! ## Look-ups -/

@[simp]
theorem owned_eq_ok {h : Handle} {ref : Ref} :
    m.owned h = .ok ref ↔ h = .given ref ∧ ref.model = m.id := by
  cases h with
  | mistyped value => simp [owned]
  | given r =>
    rw [owned]
    split
    · rw [Except.pure_eq_ok, Argument.given.injEq]
      exact ⟨fun h => ⟨h, by rwa [← h]⟩, fun h => h.1⟩
    · rename_i hne
      simp only [Except.throw_ne_ok, Argument.given.injEq, false_iff]
      rintro ⟨rfl, h⟩
      exact hne h

@[simp]
theorem ownedOf_eq_ok {kinds : List EntityKind} {h : Handle} {ref : Ref} :
    m.ownedOf kinds h = .ok ref ↔ h = .given ref ∧ ref.model = m.id ∧ ref.kind ∈ kinds := by
  rw [ownedOf, Except.bind_eq_ok]
  constructor
  · rintro ⟨r, hr, hk⟩
    split at hk
    · rw [Except.pure_eq_ok] at hk
      subst hk
      exact ⟨(owned_eq_ok.1 hr).1, (owned_eq_ok.1 hr).2, by assumption⟩
    · cases hk
  · rintro ⟨h₁, h₂, h₃⟩
    exact ⟨ref, owned_eq_ok.2 ⟨h₁, h₂⟩, by rw [if_pos h₃]; rfl⟩

theorem object_eq_ok {ref : Ref} {o : Object α} :
    m.object (.given ref) = .ok o ↔ ref.model = m.id ∧ m.find? ref = some o := by
  rw [object, Except.bind_eq_ok]
  constructor
  · rintro ⟨r, hr, ho⟩
    obtain ⟨hr, hid⟩ := owned_eq_ok.1 hr
    cases hr
    cases hf : m.find? ref with
    | none => simp [hf] at ho
    | some o' =>
      rw [hf] at ho
      exact ⟨hid, by simpa using ho⟩
  · rintro ⟨hid, hf⟩
    exact ⟨ref, owned_eq_ok.2 ⟨rfl, hid⟩, by rw [hf]; rfl⟩

/-- A parameter is found just by a reference to a live one. -/
theorem parameter_eq_ok {p : Ref} {q : Parameter α} :
    m.parameter (.given p) = .ok q ↔
      p.model = m.id ∧ p.kind = .parameter ∧ m.parameters.get? p.index = some q := by
  rw [parameter, Except.bind_eq_ok]
  constructor
  · rintro ⟨r, hr, hq⟩
    obtain ⟨hr, hid, hk⟩ := ownedOf_eq_ok.1 hr
    cases hr
    refine ⟨hid, by simpa using hk, ?_⟩
    cases hg : m.parameters.get? p.index with
    | none => simp [hg] at hq
    | some q' => simpa [hg] using hq
  · rintro ⟨hid, hk, hg⟩
    exact ⟨p, ownedOf_eq_ok.2 ⟨rfl, hid, by simp [hk]⟩, by rw [hg]; rfl⟩

/-- The table that an object at a reference lies in. -/
theorem find?_eq_some {ref : Ref} {o : Object α} :
    m.find? ref = some o ↔
      match o with
      | .parameter q => ref.kind = .parameter ∧ m.parameters.get? ref.index = some q
      | .infiniteVariable v =>
        ref.kind = .infiniteVariable ∧ m.infiniteVariables.get? ref.index = some v
      | .finiteVariable v =>
        ref.kind = .finiteVariable ∧ m.finiteVariables.get? ref.index = some v
      | .pointVariable v => ref.kind = .pointVariable ∧ m.pointVariables.get? ref.index = some v
      | .derivative d => ref.kind = .derivative ∧ m.derivatives.get? ref.index = some d
      | .measure μ => ref.kind = .measure ∧ m.measures.get? ref.index = some μ
      | .constraint c => ref.kind = .constraint ∧ m.constraints.get? ref.index = some c := by
  rw [find?]
  split <;> cases o <;> simp [*]

/-- What is read off an object is read off a live one. -/
theorem object_bind_eq_ok {β : Type} {ref : Ref} {f : Object α → Except (Error α) β} {b : β} :
    m.object (.given ref) >>= f = .ok b ↔
      ref.model = m.id ∧ ∃ o, m.find? ref = some o ∧ f o = .ok b := by
  rw [Except.bind_eq_ok]
  constructor
  · rintro ⟨o, ho, hf⟩
    obtain ⟨hid, hfind⟩ := object_eq_ok.1 ho
    exact ⟨hid, o, hfind, hf⟩
  · rintro ⟨hid, o, hfind, hf⟩
    exact ⟨o, object_eq_ok.2 ⟨hid, hfind⟩, hf⟩

/-- An infinite variable or derivative is found with its name and parameters. -/
theorem indexed_eq_ok {ref : Ref} {name : String} {parameters : List Ref} :
    m.indexed ref = .ok (name, parameters) ↔ ref.model = m.id ∧
      ((∃ v, ref.kind = .infiniteVariable ∧ m.infiniteVariables.get? ref.index = some v ∧
          v.name = name ∧ v.parameters = parameters) ∨
        ∃ d, ref.kind = .derivative ∧ m.derivatives.get? ref.index = some d ∧ d.name = name ∧
          d.parameters = parameters) := by
  rw [indexed, object_bind_eq_ok]
  refine and_congr_right fun _ => ?_
  constructor
  · rintro ⟨o, ho, hr⟩
    cases o <;> simp_all [find?_eq_some]
  · rintro (⟨v, hk, hg, rfl, rfl⟩ | ⟨d, hk, hg, rfl, rfl⟩)
    · exact ⟨.infiniteVariable v, find?_eq_some.2 ⟨hk, hg⟩, rfl⟩
    · exact ⟨.derivative d, find?_eq_some.2 ⟨hk, hg⟩, rfl⟩

theorem kind_of_indexed {ref : Ref} {found : String × List Ref} (h : m.indexed ref = .ok found) :
    ref.kind = .infiniteVariable ∨ ref.kind = .derivative :=
  (indexed_eq_ok.1 h).2.imp (fun h => h.choose_spec.1) fun h => h.choose_spec.1

theorem derivative_eq_ok {ref : Ref} {d : Derivative} :
    m.derivative ref = .ok d ↔
      ref.model = m.id ∧ ref.kind = .derivative ∧ m.derivatives.get? ref.index = some d := by
  rw [derivative, object_bind_eq_ok]
  refine and_congr_right fun _ => ⟨?_, fun h => ⟨.derivative d, find?_eq_some.2 h, rfl⟩⟩
  rintro ⟨o, ho, hr⟩
  cases o <;> simp_all [find?_eq_some]

theorem measure_eq_ok {ref : Ref} {μ : Measure α} :
    m.measure ref = .ok μ ↔
      ref.model = m.id ∧ ref.kind = .measure ∧ m.measures.get? ref.index = some μ := by
  rw [measure, object_bind_eq_ok]
  refine and_congr_right fun _ => ⟨?_, fun h => ⟨.measure μ, find?_eq_some.2 h, rfl⟩⟩
  rintro ⟨o, ho, hr⟩
  cases o <;> simp_all [find?_eq_some]

theorem constraint_eq_ok {ref : Ref} {c : Constraint α} :
    m.constraint ref = .ok c ↔
      ref.model = m.id ∧ ref.kind = .constraint ∧ m.constraints.get? ref.index = some c := by
  rw [constraint, object_bind_eq_ok]
  refine and_congr_right fun _ => ⟨?_, fun h => ⟨.constraint c, find?_eq_some.2 h, rfl⟩⟩
  rintro ⟨o, ho, hr⟩
  cases o <;> simp_all [find?_eq_some]

theorem pointVariable_eq_ok {ref : Ref} {v : PointVariable α} :
    m.pointVariable ref = .ok v ↔
      ref.model = m.id ∧ ref.kind = .pointVariable ∧ m.pointVariables.get? ref.index = some v := by
  rw [pointVariable, object_bind_eq_ok]
  refine and_congr_right fun _ => ⟨?_, fun h => ⟨.pointVariable v, find?_eq_some.2 h, rfl⟩⟩
  rintro ⟨o, ho, hr⟩
  cases o <;> simp_all [find?_eq_some]

theorem finiteVariable_eq_ok {ref : Ref} {v : FiniteVariable α} :
    m.finiteVariable ref = .ok v ↔
      ref.model = m.id ∧ ref.kind = .finiteVariable ∧
        m.finiteVariables.get? ref.index = some v := by
  rw [finiteVariable, object_bind_eq_ok]
  refine and_congr_right fun _ => ⟨?_, fun h => ⟨.finiteVariable v, find?_eq_some.2 h, rfl⟩⟩
  rintro ⟨o, ho, hr⟩
  cases o <;> simp_all [find?_eq_some]

/-! ## Live references -/

/-- The live references of a kind are those at which an object is found. -/
theorem mem_liveRefs {kind : EntityKind} {ref : Ref} :
    ref ∈ m.liveRefs kind ↔
      ref.model = m.id ∧ ref.kind = kind ∧ (m.find? ref).isSome = true := by
  -- said once for any table; each kind below is the case of its own one
  have key : ∀ {β : Type} (t : Table β), ref.kind = kind → m.indices kind = t.indices →
      ((m.find? ref).isSome = (t.get? ref.index).isSome) →
      (ref ∈ m.liveRefs kind ↔ ref.model = m.id ∧ (m.find? ref).isSome = true) := by
    intro β t hk hi hf
    rw [liveRefs, hi, hf, List.mem_map]
    constructor
    · rintro ⟨n, hn, rfl⟩
      obtain ⟨b, hb⟩ := Table.mem_indices_iff.1 hn
      exact ⟨rfl, by rw [ref, hb]; rfl⟩
    · rintro ⟨hid, hs⟩
      obtain ⟨b, hb⟩ := Option.isSome_iff_exists.1 hs
      obtain ⟨n, hn, hmem⟩ := Table.mem_rows_of_get? hb
      refine ⟨n, List.mem_map_of_mem hmem, ?_⟩
      rw [Model.ref, ← hid, ← hk, hn]
  by_cases hk : ref.kind = kind
  · subst hk
    cases hkind : ref.kind with
    | parameter =>
      simpa [hkind] using key m.parameters rfl (by rw [hkind]; rfl) (by simp [find?, hkind])
    | infiniteVariable =>
      simpa [hkind] using key m.infiniteVariables rfl (by rw [hkind]; rfl) (by simp [find?, hkind])
    | finiteVariable =>
      simpa [hkind] using key m.finiteVariables rfl (by rw [hkind]; rfl) (by simp [find?, hkind])
    | pointVariable =>
      simpa [hkind] using key m.pointVariables rfl (by rw [hkind]; rfl) (by simp [find?, hkind])
    | derivative =>
      simpa [hkind] using key m.derivatives rfl (by rw [hkind]; rfl) (by simp [find?, hkind])
    | measure =>
      simpa [hkind] using key m.measures rfl (by rw [hkind]; rfl) (by simp [find?, hkind])
    -- no table stands behind this kind, so that both sides are empty
    | reducedVariable => simp [liveRefs, indices, find?, hkind]
    | constraint =>
      simpa [hkind] using key m.constraints rfl (by rw [hkind]; rfl) (by simp [find?, hkind])
  · refine iff_of_false (fun h => ?_) fun h => hk h.2.1
    obtain ⟨n, -, rfl⟩ := List.mem_map.1 h
    exact hk rfl

theorem mem_liveRefs_parameter {ref : Ref} :
    ref ∈ m.liveRefs .parameter ↔ ∃ q, m.parameter (.given ref) = .ok q := by
  rw [mem_liveRefs]
  constructor
  · rintro ⟨hid, hk, hs⟩
    obtain ⟨q, hq⟩ := Option.isSome_iff_exists.1 (by simpa [find?, hk] using hs)
    exact ⟨q, parameter_eq_ok.2 ⟨hid, hk, hq⟩⟩
  · rintro ⟨q, hq⟩
    obtain ⟨hid, hk, hg⟩ := parameter_eq_ok.1 hq
    exact ⟨hid, hk, by simp [find?, hk, hg]⟩

/-- The live infinite variables and derivatives are those that are found with their parameters. -/
theorem mem_liveRefs_indexed {ref : Ref} :
    ref ∈ m.liveRefs .infiniteVariable ++ m.liveRefs .derivative ↔
      ∃ name parameters, m.indexed ref = .ok (name, parameters) := by
  simp only [List.mem_append, mem_liveRefs, indexed_eq_ok]
  constructor
  · rintro (⟨hid, hk, hs⟩ | ⟨hid, hk, hs⟩)
    · obtain ⟨v, hv⟩ := Option.isSome_iff_exists.1 (by simpa [find?, hk] using hs)
      exact ⟨v.name, v.parameters, hid, .inl ⟨v, hk, hv, rfl, rfl⟩⟩
    · obtain ⟨d, hd⟩ := Option.isSome_iff_exists.1 (by simpa [find?, hk] using hs)
      exact ⟨d.name, d.parameters, hid, .inr ⟨d, hk, hd, rfl, rfl⟩⟩
  · rintro ⟨name, parameters, hid, ⟨v, hk, hg, -, -⟩ | ⟨d, hk, hg, -, -⟩⟩
    · exact .inl ⟨hid, hk, by simp [find?, hk, hg]⟩
    · exact .inr ⟨hid, hk, by simp [find?, hk, hg]⟩

theorem mem_liveRefs_derivative {ref : Ref} :
    ref ∈ m.liveRefs .derivative ↔ ∃ d, m.derivative ref = .ok d := by
  simp only [mem_liveRefs, derivative_eq_ok]
  constructor
  · rintro ⟨hid, hk, hs⟩
    obtain ⟨d, hd⟩ := Option.isSome_iff_exists.1 (by simpa [find?, hk] using hs)
    exact ⟨d, hid, hk, hd⟩
  · rintro ⟨d, hid, hk, hd⟩
    exact ⟨hid, hk, by simp [find?, hk, hd]⟩

theorem mem_liveRefs_finiteVariable {ref : Ref} :
    ref ∈ m.liveRefs .finiteVariable ↔ ∃ v, m.finiteVariable ref = .ok v := by
  simp only [mem_liveRefs, finiteVariable_eq_ok]
  constructor
  · rintro ⟨hid, hk, hs⟩
    obtain ⟨v, hv⟩ := Option.isSome_iff_exists.1 (by simpa [find?, hk] using hs)
    exact ⟨v, hid, hk, hv⟩
  · rintro ⟨v, hid, hk, hv⟩
    exact ⟨hid, hk, by simp [find?, hk, hv]⟩

theorem mem_liveRefs_pointVariable {ref : Ref} :
    ref ∈ m.liveRefs .pointVariable ↔ ∃ v, m.pointVariable ref = .ok v := by
  simp only [mem_liveRefs, pointVariable_eq_ok]
  constructor
  · rintro ⟨hid, hk, hs⟩
    obtain ⟨v, hv⟩ := Option.isSome_iff_exists.1 (by simpa [find?, hk] using hs)
    exact ⟨v, hid, hk, hv⟩
  · rintro ⟨v, hid, hk, hv⟩
    exact ⟨hid, hk, by simp [find?, hk, hv]⟩

theorem mem_liveRefs_measure {ref : Ref} :
    ref ∈ m.liveRefs .measure ↔ ∃ μ, m.measure ref = .ok μ := by
  simp only [mem_liveRefs, measure_eq_ok]
  constructor
  · rintro ⟨hid, hk, hs⟩
    obtain ⟨μ, hμ⟩ := Option.isSome_iff_exists.1 (by simpa [find?, hk] using hs)
    exact ⟨μ, hid, hk, hμ⟩
  · rintro ⟨μ, hid, hk, hμ⟩
    exact ⟨hid, hk, by simp [find?, hk, hμ]⟩

theorem mem_liveRefs_constraint {ref : Ref} :
    ref ∈ m.liveRefs .constraint ↔ ∃ c, m.constraint ref = .ok c := by
  simp only [mem_liveRefs, constraint_eq_ok]
  constructor
  · rintro ⟨hid, hk, hs⟩
    obtain ⟨c, hc⟩ := Option.isSome_iff_exists.1 (by simpa [find?, hk] using hs)
    exact ⟨c, hid, hk, hc⟩
  · rintro ⟨c, hid, hk, hc⟩
    exact ⟨hid, hk, by simp [find?, hk, hc]⟩

theorem nodup_liveRefs {kind : EntityKind} (h : (m.indices kind).Nodup) :
    (m.liveRefs kind).Nodup := by
  refine h.map fun i j hij => ?_
  have hindex : (i : Int) = j := congrArg Ref.index hij
  omega

/-! ## Parameters of a function -/

/-- The parameters of an object by its kind. Those of a measure come from its function, which was
created before it. -/
theorem functionParameters_eq_ok {ref : Ref} {parameters : List Ref} :
    m.functionParameters ref = .ok parameters ↔
      ref.kind = .parameter ∧ parameters = [ref] ∨
      (ref.kind = .finiteVariable ∨ ref.kind = .pointVariable) ∧ parameters = [] ∨
      (∃ μ inner, m.measure ref = .ok μ ∧ μ.function.rank < ref.rank ∧
        m.functionParameters μ.function = .ok inner ∧
        parameters = inner.filter (· ∉ μ.data.parameters)) ∨
      ∃ name, m.indexed ref = .ok (name, parameters) := by
  -- the kind of `ref` decides between the four disjuncts, and the definition splits on it alone
  have measured : ∀ μ, m.measure ref = .ok μ → ref.kind = .measure := fun μ hμ =>
    (measure_eq_ok.1 hμ).2.1
  have indexed : ∀ name, m.indexed ref = .ok (name, parameters) →
      ref.kind = .infiniteVariable ∨ ref.kind = .derivative := fun _ => kind_of_indexed
  rw [functionParameters]
  split <;> rename_i hk
  · simp only [hk, Except.pure_eq_ok] at measured indexed ⊢
    grind
  · simp only [hk, Except.pure_eq_ok] at measured indexed ⊢
    grind
  · simp only [hk, Except.pure_eq_ok] at measured indexed ⊢
    grind
  · -- a measure: the guard on the rank is what makes the recursive call one on an older object
    simp only [Except.bind_eq_ok] at measured indexed ⊢
    constructor
    · rintro ⟨μ, hμ, h⟩
      split at h
      · rename_i hlt
        obtain ⟨inner, hinner, h⟩ := Except.bind_eq_ok.1 h
        rw [Except.pure_eq_ok] at h
        exact .inr (.inr (.inl ⟨μ, inner, hμ, hlt, hinner, h.symm⟩))
      · cases h
    · rintro (⟨h, -⟩ | ⟨h, -⟩ | ⟨μ, inner, hμ, hlt, hinner, rfl⟩ | ⟨name, hi⟩)
      · rw [hk] at h
        cases h
      · rw [hk] at h
        simp at h
      · refine ⟨μ, hμ, ?_⟩
        rw [dif_pos hlt, hinner]
        rfl
      · rw [hk] at indexed
        simpa using indexed name hi
  · simp only [Except.bind_eq_ok, Except.pure_eq_ok, Prod.exists]
    constructor
    · rintro ⟨name, found, hi, rfl⟩
      exact .inr (.inr (.inr ⟨name, hi⟩))
    · rintro (⟨h, -⟩ | ⟨h | h, -⟩ | ⟨μ, inner, hμ, -⟩ | ⟨name, hi⟩)
      · contradiction
      · contradiction
      · contradiction
      · have := measured μ hμ
        contradiction
      · exact ⟨name, parameters, hi, rfl⟩

/-- Induction on the rank: a measure asks for the parameters of its function only. -/
theorem functionParameters_induction {P : Ref → List Ref → Prop}
    (hparameter : ∀ ref, ref.kind = .parameter → P ref [ref])
    (hsingle : ∀ ref, ref.kind = .finiteVariable ∨ ref.kind = .pointVariable → P ref [])
    (hmeasure : ∀ ref μ inner, m.measure ref = .ok μ → μ.function.rank < ref.rank →
      m.functionParameters μ.function = .ok inner → P μ.function inner →
      P ref (inner.filter (· ∉ μ.data.parameters)))
    (hindexed : ∀ ref name parameters, m.indexed ref = .ok (name, parameters) → P ref parameters)
    {ref : Ref} {parameters : List Ref} (h : m.functionParameters ref = .ok parameters) :
    P ref parameters := by
  -- the call for a measure is on its function, whose rank is smaller, so the rank carries it
  induction hrank : ref.rank using Nat.strongRecOn generalizing ref parameters with
  | ind rank ih =>
    rcases functionParameters_eq_ok.1 h with ⟨hk, rfl⟩ | ⟨hk, rfl⟩ |
      ⟨μ, inner, hμ, hlt, hinner, rfl⟩ | ⟨name, hi⟩
    · exact hparameter ref hk
    · exact hsingle ref hk
    · exact hmeasure ref μ inner hμ hlt hinner (ih _ (hrank ▸ hlt) hinner rfl)
    · exact hindexed ref name parameters hi

/-- A parameter has a position in the order of the model if it is live. -/
theorem parameterPosition_eq_ok {ref : Ref} :
    (∃ position, m.parameterPosition (.given ref) = .ok position) ↔
      ref ∈ m.liveRefs .parameter := by
  -- the position is searched by index in the same rows that `get?` searches
  have hfound : (m.parameters.rows.findIdx? fun row => (row.1 : Int) = ref.index).isSome =
      (m.parameters.get? ref.index).isSome := by
    rw [List.findIdx?_isSome, Table.get?, Option.isSome_map, Bool.eq_iff_iff, List.find?_isSome,
      List.any_eq_true]
  rw [mem_liveRefs_parameter]
  simp only [parameterPosition, Except.bind_eq_ok, ownedOf_eq_ok, parameter_eq_ok]
  constructor
  · rintro ⟨position, r, ⟨hr, hid, hk⟩, h⟩
    cases hr
    split at h
    · rename_i hfind
      rw [hfind] at hfound
      obtain ⟨q, hq⟩ := Option.isSome_iff_exists.1 hfound.symm
      exact ⟨q, hid, List.mem_singleton.1 hk, hq⟩
    · cases h
  · rintro ⟨q, hid, hk, hg⟩
    rw [hg] at hfound
    obtain ⟨position, hposition⟩ := Option.isSome_iff_exists.1 hfound
    exact ⟨position, ref, ⟨rfl, hid, List.mem_singleton.2 hk⟩, by rw [hposition]; rfl⟩

/-- Sorted parameters are those given, in the order of the model. -/
theorem sortParameters_eq_ok {refs sorted : List Ref} :
    m.sortParameters (refs.map .given) = .ok sorted ↔
      (∀ p ∈ refs, p ∈ m.liveRefs .parameter) ∧
        sorted = (m.liveRefs .parameter).filter (· ∈ refs) := by
  simp only [sortParameters, Except.bind_eq_ok, Except.pure_eq_ok, Except.mapM_eq_ok,
    List.forall₂_map_left_iff, owned_eq_ok, Argument.given.injEq]
  constructor
  · rintro ⟨found, hfound, rfl⟩
    -- looking a reference up returns that reference
    have hsame : refs = found := by
      refine List.forall₂_eq_eq_eq ▸ hfound.imp ?_
      rintro p r ⟨_, _, h, _⟩
      exact h
    subst hsame
    refine ⟨fun p hp => ?_, rfl⟩
    obtain ⟨_, -, position, hposition, rfl, -⟩ := exists_right_of_mem hfound hp
    exact parameterPosition_eq_ok.1 ⟨position, hposition⟩
  · rintro ⟨hlive, rfl⟩
    refine ⟨refs, List.forall₂_same.2 fun p hp => ?_, rfl⟩
    obtain ⟨position, hposition⟩ := parameterPosition_eq_ok.2 (hlive p hp)
    exact ⟨position, hposition, rfl, (mem_liveRefs.1 (hlive p hp)).1⟩

/-- Anything but a constraint has the parameters that it has as a function. -/
theorem parametersOf_of_ne {ref : Ref} (h : ref.kind ≠ .constraint) :
    m.parametersOf ref = m.functionParameters ref := by
  rw [parametersOf]
  split
  · contradiction
  · rfl

/-- A constraint has the parameters of its terms, in the order of the model. -/
theorem parametersOf_eq_ok {ref : Ref} {c : Constraint α} (hc : m.constraint ref = .ok c)
    {parameters : List Ref} :
    m.parametersOf ref = .ok parameters ↔
      ∃ found, List.Forall₂ (fun (term : α × Ref) ps => m.functionParameters term.2 = .ok ps)
        c.terms found ∧ (∀ p ∈ found.flatten, p ∈ m.liveRefs .parameter) ∧
        parameters = (m.liveRefs .parameter).filter (· ∈ found.flatten) := by
  obtain ⟨-, hk, -⟩ := constraint_eq_ok.1 hc
  simp only [parametersOf, hk, hc, Except.bind_eq_ok, Except.ok.injEq, exists_eq_left',
    Except.mapM_eq_ok, sortParameters_eq_ok]

/-! ## Models with the same objects -/

/-- Two models have the same objects: parameters may differ in all but their references, and the
rest of the objects is equal. -/
structure SameObjects (m m' : Model α) : Prop where
  id : m'.id = m.id
  name : m'.name = m.name
  infiniteVariables : m'.infiniteVariables = m.infiniteVariables
  finiteVariables : m'.finiteVariables = m.finiteVariables
  pointVariables : m'.pointVariables = m.pointVariables
  derivatives : m'.derivatives = m.derivatives
  measures : m'.measures = m.measures
  constraints : m'.constraints = m.constraints
  parameters : m'.parameters.indices = m.parameters.indices
  last : m'.parameters.last = m.parameters.last

namespace SameObjects

variable {m' m'' : Model α}

theorem refl (m : Model α) : SameObjects m m :=
  ⟨rfl, rfl, rfl, rfl, rfl, rfl, rfl, rfl, rfl, rfl⟩

theorem trans (h : SameObjects m m') (h' : SameObjects m' m'') : SameObjects m m'' where
  id := h'.id.trans h.id
  name := h'.name.trans h.name
  infiniteVariables := h'.infiniteVariables.trans h.infiniteVariables
  finiteVariables := h'.finiteVariables.trans h.finiteVariables
  pointVariables := h'.pointVariables.trans h.pointVariables
  derivatives := h'.derivatives.trans h.derivatives
  measures := h'.measures.trans h.measures
  constraints := h'.constraints.trans h.constraints
  parameters := h'.parameters.trans h.parameters
  last := h'.last.trans h.last

theorem symm (h : SameObjects m m') : SameObjects m' m :=
  ⟨h.id.symm, h.name.symm, h.infiniteVariables.symm, h.finiteVariables.symm,
    h.pointVariables.symm, h.derivatives.symm, h.measures.symm, h.constraints.symm,
    h.parameters.symm, h.last.symm⟩

theorem liveRefs (h : SameObjects m m') (kind : EntityKind) :
    m'.liveRefs kind = m.liveRefs kind := by
  -- only the parameters may differ, and those have the same indices
  have hi : m'.indices kind = m.indices kind := by
    cases kind with
    | parameter => exact h.parameters
    | infiniteVariable => exact congrArg Table.indices h.infiniteVariables
    | finiteVariable => exact congrArg Table.indices h.finiteVariables
    | pointVariable => exact congrArg Table.indices h.pointVariables
    | derivative => exact congrArg Table.indices h.derivatives
    | measure => exact congrArg Table.indices h.measures
    | reducedVariable => rfl
    | constraint => exact congrArg Table.indices h.constraints
  rw [Model.liveRefs, Model.liveRefs, hi]
  refine List.map_congr_left fun n _ => ?_
  rw [ref, ref, h.id]

theorem wellFormed (h : SameObjects m m') (hm : m.parameters.WellFormed) :
    m'.parameters.WellFormed :=
  ⟨by rw [h.parameters]; exact hm.increasing, by rw [h.parameters, h.last]; exact hm.bounded⟩

/-- The same parameters are live. -/
theorem parameter (h : SameObjects m m') {p : Ref} {q : Parameter α}
    (hq : m.parameter (.given p) = .ok q) : ∃ q', m'.parameter (.given p) = .ok q' := by
  rw [← mem_liveRefs_parameter, h.liveRefs, mem_liveRefs_parameter]
  exact ⟨q, hq⟩

theorem indexed (h : SameObjects m m') {ref : Ref} {found : String × List Ref} :
    m'.indexed ref = .ok found ↔ m.indexed ref = .ok found := by
  rw [indexed_eq_ok, indexed_eq_ok, h.id, h.infiniteVariables, h.derivatives]

theorem derivative (h : SameObjects m m') {ref : Ref} {d : Derivative} :
    m'.derivative ref = .ok d ↔ m.derivative ref = .ok d := by
  rw [derivative_eq_ok, derivative_eq_ok, h.id, h.derivatives]

theorem measure (h : SameObjects m m') {ref : Ref} {μ : Measure α} :
    m'.measure ref = .ok μ ↔ m.measure ref = .ok μ := by
  rw [measure_eq_ok, measure_eq_ok, h.id, h.measures]

theorem constraint (h : SameObjects m m') {ref : Ref} {c : Constraint α} :
    m'.constraint ref = .ok c ↔ m.constraint ref = .ok c := by
  rw [constraint_eq_ok, constraint_eq_ok, h.id, h.constraints]

theorem pointVariable (h : SameObjects m m') {ref : Ref} {v : PointVariable α} :
    m'.pointVariable ref = .ok v ↔ m.pointVariable ref = .ok v := by
  rw [pointVariable_eq_ok, pointVariable_eq_ok, h.id, h.pointVariables]

theorem finiteVariable (h : SameObjects m m') {ref : Ref} {v : FiniteVariable α} :
    m'.finiteVariable ref = .ok v ↔ m.finiteVariable ref = .ok v := by
  rw [finiteVariable_eq_ok, finiteVariable_eq_ok, h.id, h.finiteVariables]

/-- Objects have the same parameters. -/
theorem functionParameters (h : SameObjects m m') {ref : Ref} {parameters : List Ref}
    (hf : m'.functionParameters ref = .ok parameters) :
    m.functionParameters ref = .ok parameters := by
  refine functionParameters_induction (P := fun ref parameters =>
    m.functionParameters ref = .ok parameters) (fun ref hk => ?_) (fun ref hk => ?_)
    (fun ref μ inner hμ hlt _ ih => ?_) (fun ref name parameters hi => ?_) hf
  · exact functionParameters_eq_ok.2 (.inl ⟨hk, rfl⟩)
  · exact functionParameters_eq_ok.2 (.inr (.inl ⟨hk, rfl⟩))
  · exact functionParameters_eq_ok.2 (.inr (.inr (.inl ⟨μ, inner, h.measure.1 hμ, hlt, ih, rfl⟩)))
  · exact functionParameters_eq_ok.2 (.inr (.inr (.inr ⟨name, h.indexed.1 hi⟩)))

theorem parametersOf (h : SameObjects m m') {ref : Ref} {c : Constraint α}
    (hc : m.constraint ref = .ok c) {parameters : List Ref}
    (hp : m'.parametersOf ref = .ok parameters) : m.parametersOf ref = .ok parameters := by
  obtain ⟨found, hfound, hrest⟩ := (parametersOf_eq_ok (h.constraint.2 hc)).1 hp
  rw [h.liveRefs] at hrest
  exact (parametersOf_eq_ok hc).2 ⟨found, hfound.imp fun _ _ => h.functionParameters, hrest⟩

theorem isUsed (h : SameObjects m m') (p : Ref) : m'.isUsed p = m.isUsed p := by
  simp only [Model.isUsed, usage, Usage.any, usedByVariable, usedByMeasure, usedByDerivative,
    usedByConstraint, h.infiniteVariables, h.measures, h.derivatives, h.constraints]

end SameObjects

/-! ## Changes that keep the objects -/

theorem sameObjects_markStale (m : Model α) : SameObjects m m.markStale :=
  ⟨rfl, rfl, rfl, rfl, rfl, rfl, rfl, rfl, rfl, rfl⟩

theorem sameObjects_markStaleIfUsed (m : Model α) (p : Ref) :
    SameObjects m (m.markStaleIfUsed p) := by
  rw [markStaleIfUsed]
  split
  · exact sameObjects_markStale m
  · exact .refl m

theorem sameObjects_modifyParameter (m : Model α) (p : Ref) (f : Parameter α → Parameter α) :
    SameObjects m (m.modifyParameter p f) :=
  ⟨rfl, rfl, rfl, rfl, rfl, rfl, rfl, rfl, Table.indices_modify _ _ _, rfl⟩

theorem sameObjects_storeEquations (m : Model α) (d : Nat) (equations : List (Equation α)) :
    SameObjects m (m.storeEquations d equations) :=
  ⟨rfl, rfl, rfl, rfl, rfl, rfl, rfl, rfl, rfl, rfl⟩

/-- Dropping the equations of a parameter's derivatives, one after the other, leaves those of the
other derivatives and changes nothing else but a flag. -/
theorem dropEquationsOf_eq (m : Model α) (p : Ref) :
    m.dropEquationsOf p =
      { m with
        equations := m.equations.filter fun row =>
          !(m.derivativesOf p).any fun d => (row.1 : Int) = d.index
        parameters := m.parameters.modify p.index fun q => { q with hasEquations := false } } := by
  -- dropping one list after the other is one filter that asks for membership in the list
  have drop : ∀ (refs : List Ref) (m : Model α),
      refs.foldl (fun m d => m.dropEquations d.index) m =
        { m with equations := m.equations.filter fun row =>
            !refs.any fun d => (row.1 : Int) = d.index } := by
    intro refs
    induction refs with
    | nil => intro m; simp
    | cons d rest ih =>
      intro m
      rw [List.foldl_cons, ih, dropEquations]
      simp only [List.filter_filter, List.any_cons, Bool.not_or]
      congr 1
      refine List.filter_congr fun row _ => ?_
      simp [Bool.and_comm]
  rw [dropEquationsOf, drop]
  rfl

/-! ## Edits

What a successful edit checked, and the model that it gives. -/

section Edits

variable {m' : Model α} {ref : Ref} {name : String}

theorem parameterRef_eq_ok {h : Handle} {p : Ref} :
    m.parameterRef h = .ok p ↔ h = .given p ∧ ∃ q, m.parameter (.given p) = .ok q := by
  simp only [parameterRef, Except.bind_eq_ok, Except.pure_eq_ok, ownedOf_eq_ok]
  constructor
  · rintro ⟨_, ⟨rfl, -, -⟩, q, hq, rfl⟩
    exact ⟨rfl, q, hq⟩
  · rintro ⟨rfl, q, hq⟩
    obtain ⟨hid, hkind, -⟩ := parameter_eq_ok.1 hq
    exact ⟨p, ⟨rfl, hid, List.mem_singleton.2 hkind⟩, q, hq, rfl⟩

/-- The parameters of a new variable are live, and none is repeated. -/
theorem exists_of_addInfiniteVariable {parameters : List Handle} {lower upper : Option α}
    {start : Start α} {integer : Bool}
    (h : m.addInfiniteVariable name parameters lower upper start integer = .ok (ref, m')) :
    ∃ live : List Ref, (∀ p ∈ live, ∃ q, m.parameter (.given p) = .ok q) ∧ live.Nodup ∧
      m' =
        { m with
          infiniteVariables := m.infiniteVariables.push
            { name, parameters := live, lower, upper, start, integer } }.markStale := by
  unfold addInfiniteVariable at h
  split at h
  · exact absurd h Except.throw_bind_ne_ok
  obtain ⟨live, hlive, h⟩ := Except.bind_eq_ok.1 h
  split at h
  · exact absurd h Except.throw_bind_ne_ok
  rename_i hnodup
  simp only [Except.pure_eq_ok, Prod.mk.injEq] at h
  refine ⟨live, fun p hp => ?_, not_not.1 hnodup, h.2.symm⟩
  -- each live parameter comes from a handle that was looked up
  obtain ⟨handle, -, hhandle⟩ := exists_left_of_mem (Except.mapM_eq_ok.1 hlive) hp
  exact (parameterRef_eq_ok.1 hhandle).2

/-- A new derivative is one of a live variable or derivative, with respect to a live parameter of
it. -/
theorem exists_of_addDerivative {variableRef : Handle} {p : Ref}
    {parameterName : Except (Error α) String}
    (h : m.addDerivative variableRef p name parameterName = .ok (ref, m')) :
    ∃ (v : Ref) (variableName : String) (parameters : List Ref) (q : Parameter α),
      m.ownedOf [.infiniteVariable, .derivative] variableRef = .ok v ∧
      m.indexed v = .ok (variableName, parameters) ∧ p ∈ parameters ∧
      m.parameter (.given p) = .ok q ∧
      m' =
        { m with
          derivatives := m.derivatives.push
            { name := nameOr name s!"d{variableName}/d{q.name}", ref := v, parameter := p,
              parameters } }.markStale := by
  simp only [addDerivative, Except.bind_eq_ok] at h
  obtain ⟨v, hv, ⟨variableName, parameters⟩, hindexed, h⟩ := h
  dsimp only at h
  split at h
  · simp [Except.bind_eq_ok] at h
  rename_i hp
  simp only [Except.bind_eq_ok, Except.pure_eq_ok, Prod.mk.injEq] at h
  obtain ⟨q, hq, -, rfl⟩ := h
  exact ⟨v, variableName, parameters, q, hv, hindexed, not_not.1 hp, hq, rfl⟩

/-- The terms of a new constraint are live, and so are the parameters that it restricts. -/
theorem exists_of_addConstraint [Scalar α] {terms : List (α × Handle)} {sense : String} {rhs : α}
    {restrictions : List (Handle × (α × α))}
    (h : m.addConstraint terms sense rhs name restrictions = .ok (ref, m')) :
    ∃ (terms' : List (α × Ref)) (relation : Sense) (restrictions' : List (Ref × (α × α))),
      (∀ term ∈ terms', term.2.kind ∈ [.parameter, .infiniteVariable, .derivative, .finiteVariable,
        .pointVariable, .measure] ∧ ∃ o, m.object (.given term.2) = .ok o) ∧
      (∀ box ∈ restrictions', ¬ box.2.2 < box.2.1 ∧ ∃ q, m.parameter (.given box.1) = .ok q) ∧
      m' =
        { m with
          constraints := m.constraints.push
            { name := nameOr name s!"c{m.constraints.next}", terms := terms', sense := relation,
              rhs, restrictions := restrictions' } }.markStale := by
  unfold addConstraint at h
  split at h
  · exact absurd h Except.throw_bind_ne_ok
  simp only [Except.bind_eq_ok, Except.pure_eq_ok, Prod.mk.injEq] at h
  obtain ⟨relation, -, terms', hterms, restrictions', hrestrictions, -, rfl⟩ := h
  refine ⟨terms', relation, restrictions', fun term hterm => ?_, fun box hbox => ?_, rfl⟩
  · obtain ⟨⟨coefficient, handle⟩, -, hfound⟩ :=
      exists_left_of_mem (Except.mapM_eq_ok.1 hterms) hterm
    simp only [Except.bind_eq_ok, Except.pure_eq_ok, ownedOf_eq_ok] at hfound
    obtain ⟨_, ⟨rfl, -, hkind⟩, o, ho, rfl⟩ := hfound
    exact ⟨hkind, o, ho⟩
  · obtain ⟨⟨handle, lower, upper⟩, -, hfound⟩ :=
      exists_left_of_mem (Except.mapM_eq_ok.1 hrestrictions) hbox
    simp only [Except.bind_eq_ok, parameterRef_eq_ok] at hfound
    obtain ⟨q, -, p, hp, hfound⟩ := hfound
    split at hfound
    · exact absurd hfound Except.throw_bind_ne_ok
    rename_i hordered
    rw [Except.pure_eq_ok] at hfound
    subst hfound
    exact ⟨hordered, hp.2⟩

/-- A derivative is deleted with its equations if nothing depends on it. Its parameter is then one
without equations unless another derivative by it has some. -/
theorem exists_of_deleteDerivative {handle : Handle}
    (h : m.deleteDerivative handle = .ok ((), m')) :
    ∃ (r : Ref) (d : Derivative) (kept : Model α) (q : Parameter α), m.derivative r = .ok d ∧
      m.checkUnreferenced r d.name [.derivative, .measure, .constraint, .pointVariable] = .ok () ∧
      kept = { m.dropEquations r.index with derivatives := m.derivatives.erase r.index } ∧
      kept.parameter d.parameter = .ok q ∧
      m' = (if (kept.derivativesOf d.parameter).any fun r => (kept.equations? r.index).isSome
        then kept
        else kept.modifyParameter d.parameter fun q =>
          { q with hasEquations := false }).markStale := by
  simp only [deleteDerivative, Except.bind_eq_ok, Except.pure_eq_ok, Prod.mk.injEq, true_and] at h
  obtain ⟨r, -, d, hd, _, hfree, q, hq, rfl⟩ := h
  exact ⟨r, d, _, q, hd, hfree, rfl, hq, rfl⟩

end Edits

end Model

end Discretization
