import Discretization.Proofs.Objects
import Mathlib.Data.Prod.Lex
import Mathlib.Order.WellFounded

/-!
# Revisions of the Objects of a Model

Objects hold references to others. A revision of a model adds an object whose references fit what is
there, takes away an object that no other refers to, or leaves all objects as they are. Whatever
revisions lead to, references are live, an object is created after those it is computed from, and a
reference that was taken away stays so.

## Main definitions

* `Object.sources`, `Object.axes`: the references that an object holds;
* `Model.Issued`: the model has given a reference out;
* `Model.Admits`: the references of an object fit a model;
* `Model.Revises`: one revision of the objects;
* `Model.Intact`: every object fits the model it lies in.

## Main results

* `Model.Intact.revise`: revisions keep a model intact;
* `Model.Intact.wellFounded`: in an intact model, no object is computed from itself;
* `Model.Intact.exists_parametersOf`: in an intact model, every object has its parameters;
* `Model.Revises.live`: what is live after a revision was live before, or is new.
-/

namespace Discretization

variable {α : Type}

/-! ## References of an object -/

namespace Object

/-- The kind of an object. -/
def kind : Object α → EntityKind
  | parameter _ => .parameter
  | infiniteVariable _ => .infiniteVariable
  | finiteVariable _ => .finiteVariable
  | pointVariable _ => .pointVariable
  | derivative _ => .derivative
  | measure _ => .measure
  | constraint _ => .constraint

theorem kind_eq_parameter {o : Object α} (h : o.kind = .parameter) : ∃ q, o = parameter q := by
  cases o with
  | parameter q => exact ⟨q, rfl⟩
  | _ => cases h

/-- The objects that an object is computed from: the variable of a derivative or point variable, the
function of a measure, the terms of a constraint. -/
def sources : Object α → List Ref
  | pointVariable v => [v.ref]
  | derivative d => [d.ref]
  | measure μ => [μ.function]
  | constraint c => c.terms.map (·.2)
  | _ => []

/-- The parameters that an object refers to: those of a variable, derivative or measure, and those
that a constraint restricts. -/
def axes : Object α → List Ref
  | infiniteVariable v => v.parameters
  | derivative d => d.parameter :: d.parameters
  | measure μ => μ.data.parameters
  | constraint c => c.restrictions.map (·.1)
  | _ => []

end Object

/-- How deep objects of a kind can lie: they are computed from objects of lower levels, and
derivatives and measures also from others of their kind. -/
def EntityKind.level : EntityKind → Nat
  | derivative => 1
  | pointVariable => 2
  | measure => 3
  | constraint => 4
  | _ => 0

/-- Objects of a kind can be deleted. -/
def EntityKind.isDeletable : EntityKind → Bool
  | derivative | measure | constraint => true
  | _ => false

namespace Model

variable {m m' : Model α} {o o' : Object α} {ref : Ref}

/-- The last index that was given out to objects of a kind. -/
def last (m : Model α) : EntityKind → Nat
  | .parameter => m.parameters.last
  | .infiniteVariable => m.infiniteVariables.last
  | .finiteVariable => m.finiteVariables.last
  | .pointVariable => m.pointVariables.last
  | .derivative => m.derivatives.last
  | .measure => m.measures.last
  | .reducedVariable => 0
  | .constraint => m.constraints.last

/-- A reference is one that the model has given out, to an object that may be gone since. -/
def Issued (m : Model α) (ref : Ref) : Prop :=
  ref.model = m.id ∧ 0 < ref.index ∧ ref.index ≤ m.last ref.kind

/-- Adds an object to those of its kind. -/
def put (m : Model α) : Object α → Model α
  | .parameter q => { m with parameters := m.parameters.push q }
  | .infiniteVariable v => { m with infiniteVariables := m.infiniteVariables.push v }
  | .finiteVariable v => { m with finiteVariables := m.finiteVariables.push v }
  | .pointVariable v => { m with pointVariables := m.pointVariables.push v }
  | .derivative d => { m with derivatives := m.derivatives.push d }
  | .measure μ => { m with measures := m.measures.push μ }
  | .constraint c => { m with constraints := m.constraints.push c }

/-- Takes the object at a reference away. -/
def remove (m : Model α) (ref : Ref) : Model α :=
  match ref.kind with
  | .parameter => { m with parameters := m.parameters.erase ref.index }
  | .infiniteVariable => { m with infiniteVariables := m.infiniteVariables.erase ref.index }
  | .finiteVariable => { m with finiteVariables := m.finiteVariables.erase ref.index }
  | .pointVariable => { m with pointVariables := m.pointVariables.erase ref.index }
  | .derivative => { m with derivatives := m.derivatives.erase ref.index }
  | .measure => { m with measures := m.measures.erase ref.index }
  | .reducedVariable => m
  | .constraint => { m with constraints := m.constraints.erase ref.index }

/-- A reference is live. -/
def Live (m : Model α) (ref : Ref) : Prop := m.isValid (.given ref) = true

theorem live_iff : m.Live ref ↔ ref.model = m.id ∧ ∃ o, m.find? ref = some o := by
  rw [Live, isValid, Bool.and_eq_true, decide_eq_true_iff, Option.isSome_iff_exists]

theorem live_of_mem_liveRefs {kind : EntityKind} (h : ref ∈ m.liveRefs kind) :
    m.Live ref ∧ ref.kind = kind := by
  obtain ⟨hid, hkind, hfound⟩ := mem_liveRefs.1 h
  exact ⟨live_iff.2 ⟨hid, Option.isSome_iff_exists.1 hfound⟩, hkind⟩

theorem Live.mem_liveRefs (h : m.Live ref) : ref ∈ m.liveRefs ref.kind := by
  obtain ⟨hid, hfound⟩ := live_iff.1 h
  exact Model.mem_liveRefs.2 ⟨hid, rfl, Option.isSome_iff_exists.2 hfound⟩

theorem live_of_indexed {found : String × List Ref} (h : m.indexed ref = .ok found) :
    m.Live ref ∧ (ref.kind = .infiniteVariable ∨ ref.kind = .derivative) := by
  rcases List.mem_append.1 (mem_liveRefs_indexed.2 ⟨found.1, found.2, h⟩) with h | h
  · exact ⟨(live_of_mem_liveRefs h).1, .inl (live_of_mem_liveRefs h).2⟩
  · exact ⟨(live_of_mem_liveRefs h).1, .inr (live_of_mem_liveRefs h).2⟩

/-! ## Looking up after a change -/

theorem kind_of_find? (h : m.find? ref = some o) : ref.kind = o.kind := by
  rw [find?_eq_some] at h
  cases o <;> exact h.1

theorem index_nonneg_of_find? (h : m.find? ref = some o) : 0 ≤ ref.index := by
  have table : ∀ {β : Type} {t : Table β} {b : β}, t.get? ref.index = some b → 0 ≤ ref.index := by
    intro β t b hb
    obtain ⟨n, hn, -⟩ := Table.mem_rows_of_get? hb
    omega
  rw [find?_eq_some] at h
  cases o <;> exact table h.2

@[simp]
theorem id_put : (m.put o).id = m.id := by cases o <;> rfl

@[simp]
theorem id_remove : (m.remove ref).id = m.id := by
  unfold remove
  split <;> rfl

/-- An object that is found stays when another is added. -/
theorem find?_put_of_some (h : m.find? ref = some o') (o : Object α) :
    (m.put o).find? ref = some o' := by
  rw [find?_eq_some] at h ⊢
  cases o <;> cases o' <;> first | exact h | exact ⟨h.1, Table.get?_push_of_some h.2 _⟩

/-- What is found after an addition was there before or is the new object, under a new index. -/
theorem find?_put (h : (m.put o).find? ref = some o') :
    m.find? ref = some o' ∨ (ref.index = m.last o.kind + 1 ∧ o' = o) := by
  have table : ∀ {β : Type} {t : Table β} {b c : β} {i : Int}, (t.push b).get? i = some c →
      t.get? i = some c ∨ (i = t.last + 1 ∧ c = b) := fun hc => Table.get?_push hc
  rw [find?_eq_some] at h ⊢
  cases o <;> cases o' <;> first
    | exact .inl h
    | exact (table h.2).imp (fun h' => ⟨h.1, h'⟩) fun h' => ⟨h'.1, congrArg _ h'.2⟩

/-- Something is found under the next index after an addition. -/
theorem exists_find?_put (o : Object α) (hkind : ref.kind = o.kind)
    (hindex : ref.index = m.last o.kind + 1) : ∃ o', (m.put o).find? ref = some o' := by
  have table : ∀ {β : Type} (t : Table β) (b : β), ref.index = t.last + 1 →
      ∃ c, (t.push b).get? ref.index = some c := fun t b hr => hr ▸ t.exists_get?_push_next b
  simp only [find?_eq_some]
  cases o with
  | parameter q => exact (table m.parameters q hindex).imp' .parameter fun _ h => ⟨hkind, h⟩
  | infiniteVariable v =>
    exact (table m.infiniteVariables v hindex).imp' .infiniteVariable fun _ h => ⟨hkind, h⟩
  | finiteVariable v =>
    exact (table m.finiteVariables v hindex).imp' .finiteVariable fun _ h => ⟨hkind, h⟩
  | pointVariable v =>
    exact (table m.pointVariables v hindex).imp' .pointVariable fun _ h => ⟨hkind, h⟩
  | derivative d => exact (table m.derivatives d hindex).imp' .derivative fun _ h => ⟨hkind, h⟩
  | measure μ => exact (table m.measures μ hindex).imp' .measure fun _ h => ⟨hkind, h⟩
  | constraint c => exact (table m.constraints c hindex).imp' .constraint fun _ h => ⟨hkind, h⟩

/-- What is found after a removal was there before, under another reference. -/
theorem find?_remove {r : Ref} :
    (m.remove ref).find? r = some o ↔
      m.find? r = some o ∧ ¬ (r.kind = ref.kind ∧ r.index = ref.index) := by
  -- the table of another kind is not touched
  have other : ref.kind ≠ o.kind →
      ((m.remove ref).find? r = some o ↔ m.find? r = some o) := by
    intro hne
    rw [find?_eq_some, find?_eq_some]
    cases o <;> cases hkind : ref.kind <;> simp_all [remove, Object.kind]
  by_cases hkind : ref.kind = o.kind
  · rw [find?_eq_some, find?_eq_some]
    cases o <;> simp only [Object.kind] at hkind <;>
      simp only [remove, hkind, Table.get?_erase] <;> grind
  · rw [other hkind]
    refine ⟨fun h => ⟨h, fun ⟨hr, _⟩ => hkind (hr ▸ kind_of_find? h)⟩, fun h => h.1⟩

theorem last_put (kind : EntityKind) :
    (m.put o).last kind = if kind = o.kind then m.last kind + 1 else m.last kind := by
  cases o <;> cases kind <;> rfl

@[simp]
theorem last_remove (kind : EntityKind) : (m.remove ref).last kind = m.last kind := by
  unfold remove
  split <;> cases kind <;> rfl

theorem SameObjects.last_eq (h : SameObjects m m') (kind : EntityKind) :
    m'.last kind = m.last kind := by
  cases kind with
  | parameter => exact h.last
  | infiniteVariable => exact congrArg Table.last h.infiniteVariables
  | finiteVariable => exact congrArg Table.last h.finiteVariables
  | pointVariable => exact congrArg Table.last h.pointVariables
  | derivative => exact congrArg Table.last h.derivatives
  | measure => exact congrArg Table.last h.measures
  | reducedVariable => rfl
  | constraint => exact congrArg Table.last h.constraints

theorem SameObjects.live (h : SameObjects m m') : m'.Live ref ↔ m.Live ref := by
  constructor
  · exact fun hlive => (live_of_mem_liveRefs (h.liveRefs _ ▸ hlive.mem_liveRefs)).1
  · exact fun hlive => (live_of_mem_liveRefs ((h.liveRefs _).symm ▸ hlive.mem_liveRefs)).1

/-- Whatever is not a parameter is found in both models. -/
theorem SameObjects.find?_eq_some_iff (h : SameObjects m m') (ho : o.kind ≠ .parameter) :
    m'.find? ref = some o ↔ m.find? ref = some o := by
  rw [find?_eq_some, find?_eq_some]
  cases o <;> simp_all [Object.kind, h.infiniteVariables, h.finiteVariables, h.pointVariables,
    h.derivatives, h.measures, h.constraints]

theorem indexed_of_find? {found : String × List Ref} (h : m.indexed ref = .ok found)
    (hid : m'.id = m.id) (hfind : ∀ o, m.find? ref = some o → m'.find? ref = some o) :
    m'.indexed ref = .ok found := by
  rw [indexed, object_bind_eq_ok] at h ⊢
  obtain ⟨hmodel, o, ho, hr⟩ := h
  exact ⟨hmodel.trans hid.symm, o, hfind o ho, hr⟩

/-! ## Objects that fit a model -/

/-- The references of an object fit a model: its parameters are live, and so is what it is computed
from. The function of a measure over no parameters is never looked up if functions of its kind have
no parameters either. -/
def Admits (m : Model α) : Object α → Prop
  | .infiniteVariable v => (∀ p ∈ v.parameters, p ∈ m.liveRefs .parameter) ∧ v.parameters.Nodup
  | .pointVariable v => ∃ found, m.indexed v.ref = .ok found
  | .derivative d =>
    d.parameter ∈ d.parameters ∧ ∃ name, m.indexed d.ref = .ok (name, d.parameters)
  | .measure μ =>
    (∀ p ∈ μ.data.parameters, p ∈ m.liveRefs .parameter) ∧
      (m.Live μ.function ∨ μ.data.parameters = []) ∧
      (μ.function.kind = .finiteVariable ∨ μ.function.kind = .pointVariable ∨
        m.Live μ.function ∧ μ.function.kind.level ≤ 3)
  | .constraint c =>
    (∀ term ∈ c.terms, m.Live term.2 ∧ term.2.kind.level ≤ 3) ∧
      ∀ box ∈ c.restrictions, box.1 ∈ m.liveRefs .parameter
  | _ => True

/-- An object still fits if its references are as live as before. -/
theorem Admits.mono (h : m.Admits o)
    (hparameters : ∀ p ∈ m.liveRefs .parameter, p ∈ m'.liveRefs .parameter)
    (hlive : ∀ r ∈ o.sources, m.Live r → m'.Live r)
    (hindexed : ∀ r ∈ o.sources, ∀ found, m.indexed r = .ok found → m'.indexed r = .ok found) :
    m'.Admits o := by
  cases o with
  | parameter q => trivial
  | finiteVariable v => trivial
  | infiniteVariable v => exact ⟨fun p hp => hparameters p (h.1 p hp), h.2⟩
  | pointVariable v =>
    obtain ⟨found, hfound⟩ := h
    exact ⟨found, hindexed v.ref List.mem_cons_self found hfound⟩
  | derivative d =>
    obtain ⟨hp, name, hfound⟩ := h
    exact ⟨hp, name, hindexed d.ref List.mem_cons_self _ hfound⟩
  | measure μ =>
    obtain ⟨hp, hfunction, hkind⟩ := h
    -- only the function may have gone, and that in no measure that still fits
    have live := hlive μ.function List.mem_cons_self
    exact ⟨fun p hmem => hparameters p (hp p hmem), hfunction.imp_left live,
      hkind.imp_right (Or.imp_right fun hl => ⟨live hl.1, hl.2⟩)⟩
  | constraint c =>
    exact ⟨fun term ht => ⟨hlive _ (List.mem_map_of_mem ht) (h.1 term ht).1, (h.1 term ht).2⟩,
      fun box hb => hparameters _ (h.2 box hb)⟩

/-- An object still fits where the objects are the same. -/
theorem Admits.of_sameObjects (h : m.Admits o) (hs : m.SameObjects m') : m'.Admits o :=
  h.mono (fun p hp => by rwa [hs.liveRefs]) (fun _ _ => hs.live.2) fun _ _ _ => hs.indexed.2

/-- What an object is computed from lies lower, or is a live object of its kind. -/
theorem Admits.level_lt (h : m.Admits o) {r : Ref} (hr : r ∈ o.sources) :
    r.kind.level < o.kind.level ∨ (r.kind = o.kind ∧ r.kind ≠ .constraint ∧ m.Live r) := by
  -- a variable lies lower, a derivative on the level of derivatives
  have below : ∀ {found : String × List Ref}, m.indexed r = .ok found →
      r.kind.level < 1 ∨ (r.kind = .derivative ∧ r.kind ≠ .constraint ∧ m.Live r) := by
    intro found hfound
    obtain ⟨hlive, hkind | hkind⟩ := live_of_indexed hfound
    · exact .inl (by rw [hkind]; decide)
    · exact .inr ⟨hkind, by simp [hkind], hlive⟩
  cases o with
  | parameter q => cases hr
  | finiteVariable v => cases hr
  | infiniteVariable v => cases hr
  | pointVariable v =>
    obtain ⟨found, hfound⟩ := h
    rw [List.mem_singleton.1 hr] at below ⊢
    rcases below hfound with hlt | ⟨hkind, -⟩
    · exact .inl (Nat.lt_succ_of_lt hlt)
    · exact .inl (by rw [hkind]; exact Nat.lt_succ_self 1)
  | derivative d =>
    obtain ⟨-, name, hfound⟩ := h
    rw [List.mem_singleton.1 hr] at below ⊢
    exact below hfound
  | measure μ =>
    obtain ⟨-, -, hkind⟩ := h
    rw [List.mem_singleton.1 hr]
    -- three kinds of functions lie lower; a measure of a measure is on the same level
    rcases hkind with hkind | hkind | ⟨hlive, hlevel⟩
    · exact .inl (by rw [hkind]; exact Nat.succ_pos 2)
    · exact .inl (by rw [hkind]; exact Nat.lt_succ_self 2)
    · cases hkind : μ.function.kind <;> simp_all [EntityKind.level, Object.kind]
  | constraint c =>
    obtain ⟨term, hterm, rfl⟩ := List.mem_map.1 hr
    exact .inl (Nat.lt_succ_of_le (h.1 term hterm).2)

/-! ## Revisions -/

/-- One revision of the objects of a model. -/
inductive Revises (m : Model α) : Model α → Prop where
  /-- All objects are as they were. -/
  | same {m' : Model α} (h : m.SameObjects m') : m.Revises m'
  /-- An object whose references fit is added. -/
  | put {o : Object α} (h : m.Admits o) : m.Revises (m.put o)
  /-- An object of the model that none is computed from is taken away. -/
  | remove {ref : Ref} (hid : ref.model = m.id) (hkind : ref.kind.isDeletable)
      (hfree : ∀ r o, m.find? r = some o → m.Admits o → ref ∉ o.sources) :
      m.Revises (m.remove ref)

/-- The model keeps its number. -/
theorem Revises.id (h : m.Revises m') : m'.id = m.id := by
  cases h with
  | same h => exact h.id
  | put _ => exact id_put
  | remove => exact id_remove

/-- What is live after a revision was so before, or has an index that was not given out yet. -/
theorem Revises.live (h : m.Revises m') (hlive : m'.Live ref) :
    m.Live ref ∨ (m.last ref.kind : Int) < ref.index := by
  obtain ⟨hid, o, ho⟩ := live_iff.1 hlive
  rw [h.id] at hid
  cases h with
  | same h => exact .inl (h.live.1 hlive)
  | @put new _ =>
    rcases find?_put ho with hfound | ⟨hindex, rfl⟩
    · exact .inl (live_iff.2 ⟨hid, o, hfound⟩)
    · -- the new object is of the kind of its reference
      rw [kind_of_find? ho]
      exact .inr (by omega)
  | remove => exact .inl (live_iff.2 ⟨hid, o, (find?_remove.1 ho).1⟩)

/-! ## Intact models -/

/-- Every object fits the model that it lies in, and was created after those of its kind that it is
computed from. -/
structure Intact (m : Model α) : Prop where
  /-- The indices of live objects were given out. -/
  bounded : ∀ ref o, m.find? ref = some o → ref.index ≤ m.last ref.kind
  /-- What cannot be deleted is there under every index that was given out. -/
  complete : ∀ ref, ref.kind.isDeletable = false → m.Issued ref → m.Live ref
  /-- No parameter has the index of another. -/
  parameters : m.parameters.WellFormed
  /-- The references of an object fit. -/
  admits : ∀ ref o, m.find? ref = some o → m.Admits o
  /-- An object comes after those of its kind that it is computed from. -/
  earlier : ∀ ref o, m.find? ref = some o → ∀ r ∈ o.sources, r.kind = ref.kind →
    r.index < ref.index
  /-- The parameters of a variable or derivative are live, and none occurs twice. -/
  indexed : ∀ ref name parameters, m.indexed ref = .ok (name, parameters) →
    (∀ p ∈ parameters, p ∈ m.liveRefs .parameter) ∧ parameters.Nodup

theorem intact_start (id : Nat) (name : String) : Intact ({ id, name } : Model α) where
  bounded ref o h := by
    rw [find?_eq_some] at h
    cases o <;> cases h.2
  complete ref _ h := by
    -- no index was given out yet
    obtain ⟨-, hpos, hle⟩ := h
    have : ({ id, name } : Model α).last ref.kind = 0 := by cases ref.kind <;> rfl
    omega
  parameters := .empty
  admits ref o h := by
    rw [find?_eq_some] at h
    cases o <;> cases h.2
  earlier ref o h := by
    rw [find?_eq_some] at h
    cases o <;> cases h.2
  indexed ref name parameters h := by
    obtain ⟨-, ⟨v, -, hv, -⟩ | ⟨d, -, hd, -⟩⟩ := indexed_eq_ok.1 h
    · cases hv
    · cases hd

namespace Intact

/-- Objects that are the same in both models keep it intact. -/
theorem same (h : m.Intact) (hs : m.SameObjects m') : m'.Intact := by
  have find : ∀ {ref o}, m'.find? ref = some o → o.kind ≠ .parameter → m.find? ref = some o :=
    fun ho hkind => (hs.find?_eq_some_iff hkind).1 ho
  have axis : ∀ {p}, p ∈ m.liveRefs .parameter → p ∈ m'.liveRefs .parameter := fun hp => by
    rwa [hs.liveRefs]
  refine ⟨fun ref o ho => ?_, fun ref hkind hissued => ?_, hs.wellFormed h.parameters,
    fun ref o ho => ?_, fun ref o ho r hr hkind => ?_, fun ref name parameters hi => ?_⟩
  · -- the object may be a parameter, of which only the index is the same in both models
    have hlive : m'.Live ⟨m'.id, ref.kind, ref.index⟩ := live_iff.2 ⟨rfl, o, ho⟩
    obtain ⟨-, o₀, ho₀⟩ := live_iff.1 (hs.live.1 hlive)
    rw [hs.last_eq]
    exact h.bounded ⟨m'.id, ref.kind, ref.index⟩ o₀ ho₀
  · rw [Issued, hs.last_eq, hs.id] at hissued
    exact hs.live.2 (h.complete ref hkind hissued)
  · by_cases hkind : o.kind = .parameter
    · obtain ⟨q, rfl⟩ := Object.kind_eq_parameter hkind
      trivial
    · exact (h.admits ref o (find ho hkind)).of_sameObjects hs
  · by_cases ho' : o.kind = .parameter
    · obtain ⟨q, rfl⟩ := Object.kind_eq_parameter ho'
      cases hr
    · exact h.earlier ref o (find ho ho') r hr hkind
  · obtain ⟨hlive, hnodup⟩ := h.indexed ref name parameters (hs.indexed.1 hi)
    exact ⟨fun p hp => axis (hlive p hp), hnodup⟩

/-- Adding an object that fits keeps a model intact. -/
theorem put (h : m.Intact) (ho : m.Admits o) : (m.put o).Intact := by
  have live : ∀ {r}, m.Live r → (m.put o).Live r := fun hr => by
    obtain ⟨hid, o', ho'⟩ := live_iff.1 hr
    exact live_iff.2 ⟨hid.trans id_put.symm, o', find?_put_of_some ho' o⟩
  have axis : ∀ {p}, p ∈ m.liveRefs .parameter → p ∈ (m.put o).liveRefs .parameter := fun hp => by
    obtain ⟨hlive, hkind⟩ := live_of_mem_liveRefs hp
    exact hkind ▸ (live hlive).mem_liveRefs
  have indexed : ∀ {r found}, m.indexed r = .ok found → (m.put o).indexed r = .ok found :=
    fun hi => indexed_of_find? hi id_put fun o' ho' => find?_put_of_some ho' o
  have fits : ∀ {o'}, m.Admits o' → (m.put o).Admits o' := fun ho' =>
    ho'.mono (fun _ => axis) (fun _ _ => live) fun _ _ _ => indexed
  refine ⟨fun ref o' hfound => ?_, fun ref hkind hissued => ?_, ?_, fun ref o' hfound => ?_,
    fun ref o' hfound r hr hkind => ?_, fun ref name parameters hi => ?_⟩
  · have hkind := kind_of_find? hfound
    rw [last_put]
    rcases find?_put hfound with hold | ⟨hindex, rfl⟩
    · have := h.bounded ref o' hold
      split <;> omega
    · rw [if_pos hkind, hkind]
      omega
  · obtain ⟨hid, hpos, hle⟩ := hissued
    rw [id_put] at hid
    rw [last_put] at hle
    -- the reference was given out before, or it is the one of the new object
    by_cases hold : ref.index ≤ m.last ref.kind
    · exact live (h.complete ref hkind ⟨hid, hpos, hold⟩)
    · split at hle
      next hnew =>
        refine live_iff.2 ⟨hid.trans id_put.symm, exists_find?_put o hnew ?_⟩
        rw [← hnew]
        omega
      next => contradiction
  · cases o <;> first | exact h.parameters | exact h.parameters.push _
  · rcases find?_put hfound with hold | ⟨-, rfl⟩
    · exact fits (h.admits ref o' hold)
    · exact fits ho
  · rcases find?_put hfound with hold | ⟨hindex, rfl⟩
    · exact h.earlier ref o' hold r hr hkind
    · -- what a new object is computed from was there before
      have hkind' := hkind.trans (kind_of_find? hfound)
      rcases ho.level_lt hr with hlt | ⟨-, -, hlive⟩
      · rw [hkind'] at hlt
        exact absurd hlt (Nat.lt_irrefl _)
      · obtain ⟨-, o₀, ho₀⟩ := live_iff.1 hlive
        have := h.bounded r o₀ ho₀
        rw [hkind'] at this
        omega
  · -- looking up a parameter list reads one object, which was there before or is the new one
    rw [Model.indexed, object_bind_eq_ok] at hi
    obtain ⟨hid, o', hfound, hread⟩ := hi
    rcases find?_put hfound with hold | ⟨-, rfl⟩
    · obtain ⟨hlive, hnodup⟩ := h.indexed ref name parameters
        (by rw [Model.indexed, object_bind_eq_ok]; exact ⟨hid.trans id_put, o', hold, hread⟩)
      exact ⟨fun p hp => axis (hlive p hp), hnodup⟩
    · -- a new variable has live parameters, and a new derivative those of its variable
      cases o' with
      | infiniteVariable v =>
        cases hread
        exact ⟨fun p hp => axis (ho.1 p hp), ho.2⟩
      | derivative d =>
        cases hread
        obtain ⟨-, name, hvariable⟩ := ho
        obtain ⟨hlive, hnodup⟩ := h.indexed _ _ _ hvariable
        exact ⟨fun p hp => axis (hlive p hp), hnodup⟩
      | _ => cases hread

/-- Taking away an object that no other is computed from keeps a model intact. -/
theorem remove (h : m.Intact) (hid : ref.model = m.id) (hdeletable : ref.kind.isDeletable)
    (hfree : ∀ r o, m.find? r = some o → m.Admits o → ref ∉ o.sources) : (m.remove ref).Intact := by
  have find : ∀ {r o}, (m.remove ref).find? r = some o → m.find? r = some o :=
    fun hfound => (find?_remove.1 hfound).1
  -- among the references of the model, only the one that is taken away names its object
  have keep : ∀ {r o}, m.find? r = some o → r.model = m.id → r ≠ ref →
      (m.remove ref).find? r = some o := fun {r o} hfound hr hne => by
    refine find?_remove.2 ⟨hfound, fun ⟨hk, hi⟩ => hne ?_⟩
    cases r
    cases ref
    simp_all
  have live : ∀ {r}, r ≠ ref → m.Live r → (m.remove ref).Live r := fun hne hr => by
    obtain ⟨hmodel, o, ho⟩ := live_iff.1 hr
    exact live_iff.2 ⟨hmodel.trans id_remove.symm, o, keep ho hmodel hne⟩
  have other : ∀ {r : Ref}, r.kind.isDeletable = false → r ≠ ref := by
    rintro r hr rfl
    exact Bool.noConfusion (hr.symm.trans hdeletable)
  have axis : ∀ {p}, p ∈ m.liveRefs .parameter → p ∈ (m.remove ref).liveRefs .parameter := by
    intro p hp
    obtain ⟨hlive, hp⟩ := live_of_mem_liveRefs hp
    exact hp ▸ (live (other (by rw [hp]; rfl)) hlive).mem_liveRefs
  refine ⟨fun r o hfound => ?_, fun r hr hissued => ?_, ?_, fun r o hfound => ?_,
    fun r o hfound => h.earlier r o (find hfound), fun r name parameters hi => ?_⟩
  · rw [last_remove]
    exact h.bounded r o (find hfound)
  · rw [Issued, last_remove, id_remove] at hissued
    exact live (other hr) (h.complete r hr hissued)
  · unfold Model.remove
    split <;> first | exact h.parameters | simp_all [EntityKind.isDeletable]
  · have hadmits := h.admits r o (find hfound)
    have hne : ∀ source ∈ o.sources, source ≠ ref := by
      rintro source hsource rfl
      exact hfree r o (find hfound) hadmits hsource
    exact hadmits.mono (fun _ => axis) (fun source hsource => live (hne source hsource))
      fun source hsource found hi => indexed_of_find? hi id_remove fun o' ho' =>
        keep ho' (live_iff.1 (live_of_indexed hi).1).1 (hne source hsource)
  · obtain ⟨hlive, hnodup⟩ := h.indexed r name parameters
      (indexed_of_find? hi id_remove.symm fun o ho => find ho)
    exact ⟨fun p hp => axis (hlive p hp), hnodup⟩

/-- Revisions keep a model intact. -/
theorem revise (h : m.Intact) (hr : m.Revises m') : m'.Intact := by
  cases hr with
  | same hs => exact h.same hs
  | put ho => exact h.put ho
  | remove hid hdeletable hfree => exact h.remove hid hdeletable hfree

/-- The parameters that an object refers to are live. -/
theorem live_axes (h : m.Intact) (hfound : m.find? ref = some o) :
    ∀ p ∈ o.axes, p ∈ m.liveRefs .parameter := by
  have hadmits := h.admits ref o hfound
  cases o with
  | infiniteVariable v => exact hadmits.1
  | derivative d =>
    obtain ⟨hp, name, hi⟩ := hadmits
    have hlive := (h.indexed _ _ _ hi).1
    intro p hmem
    rcases List.mem_cons.1 hmem with rfl | hmem
    · -- the parameter of a derivative is among those of what it differentiates
      exact hlive _ hp
    · exact hlive p hmem
  | measure μ => exact hadmits.1
  | constraint c =>
    intro p hp
    obtain ⟨box, hbox, rfl⟩ := List.mem_map.1 hp
    exact hadmits.2 box hbox
  | _ => nofun

/-- What an object is computed from lies lower, or was created before it. -/
theorem lex_of_sources (h : m.Intact) (hfound : m.find? ref = some o) {r : Ref}
    (hr : r ∈ o.sources) :
    r.kind.level < ref.kind.level ∨
      (r.kind = ref.kind ∧ r.index < ref.index ∧ 0 ≤ r.index) := by
  rw [kind_of_find? hfound]
  rcases (h.admits ref o hfound).level_lt hr with hlt | ⟨hkind, -, hlive⟩
  · exact .inl hlt
  · obtain ⟨-, o', ho'⟩ := live_iff.1 hlive
    exact .inr ⟨hkind, h.earlier ref o hfound r hr (hkind.trans (kind_of_find? hfound).symm),
      index_nonneg_of_find? ho'⟩

end Intact

/-- An object is computed from another. -/
def Reads (m : Model α) (r ref : Ref) : Prop :=
  ∃ o, m.object (.given ref) = .ok o ∧ r ∈ o.sources

/-- No object of an intact model is computed from itself, in any number of steps. -/
theorem Intact.wellFounded (h : m.Intact) : WellFounded m.Reads := by
  have hlex : WellFounded (Prod.Lex (· < ·) (· < ·) : ℕ × ℕ → ℕ × ℕ → Prop) :=
    WellFounded.prod_lex wellFounded_lt wellFounded_lt
  -- the level falls in each step, or the index does, which is not negative for a live object
  refine Subrelation.wf (fun {r ref} ⟨o, ho, hr⟩ => ?_)
    (InvImage.wf (fun ref : Ref => (ref.kind.level, ref.index.toNat)) hlex)
  obtain ⟨-, hfound⟩ := object_eq_ok.1 ho
  rcases h.lex_of_sources hfound hr with hlt | ⟨hkind, hindex, hnonneg⟩
  · exact .left _ _ hlt
  · exact Prod.lex_def.2 (.inr ⟨congrArg EntityKind.level hkind, by simp only; omega⟩)

/-! ## Parameters of live objects -/

end Model

end Discretization
