import Discretization.Proofs.Policies
import Discretization.Proofs.Selections

/-!
# Known Internal Supports

A parameter has a flag for internal supports, which lets public queries skip the labels. It is
never unset while an internal support is stored. It is set by the label under which values are
added, though, also where there are no values, and it is brought up to date only when labels are
taken away. So it is exact as long as values that are stored under an internal label are never
empty, and no support is undefined, as taking labels away ends early at such a one.

## Main definitions

* `Label.Fills`: values that are stored under an internal label are not empty;
* `Parameter.Flagged`: a parameter that is known to have internal supports has some;
* `Request.Fills`: requests that store no empty values under internal labels.

## Main results

* `hasInternal_iff_of_requested`: the flag is set if and only if an internal support is stored.
-/

namespace Discretization

variable {α : Type}

/-! ## Derived supports are not empty -/

/-- Between the ends of an element with `degree + 2` nodes lie `degree` of them. -/
theorem Lobatto.length_roots (degree : Nat) : (roots degree).length = degree := by
  induction degree with
  | zero => rfl
  | succ degree ih => simp [roots, ih]

/-- If the label is internal, there are values to store under it. -/
def Label.Fills (label : Label) (values : List α) : Prop :=
  label.internal = true → values ≠ []

/-- Supports under an internal label are derived from a basis that is not empty. -/
def GenerativeInfo.Fills (info : GenerativeInfo α) : Prop :=
  ∀ basis label, info = .uniform basis label → label.Fills basis

variable [Scalar α]

theorem Label.Fills.of_round {label : Label} {digits : Int} {values rounded : List α}
    (h : label.Fills values) (hr : roundList digits values = .ok rounded) :
    label.Fills rounded := by
  intro hinternal hnil
  have hlength := length_of_roundList hr
  rw [hnil] at hlength
  exact h hinternal (List.length_eq_zero_iff.1 hlength.symm)

theorem DerivativeMethod.fills (method : DerivativeMethod) :
    (method.generativeInfo : GenerativeInfo α).Fills := by
  intro basis label hinfo _ hnil
  cases method with
  | orthogonalCollocation nodes =>
    rw [generativeInfo] at hinfo
    split at hinfo
    · cases hinfo
    · cases hinfo
      have hlength := Lobatto.length_roots (nodes - 2)
      simp only [Lobatto.innerNodes, List.map_eq_nil_iff] at hnil
      rw [hnil, List.length_nil] at hlength
      omega
  | _ => cases hinfo

/-- A basis that is not empty gives a support in every element, and there is an element. -/
theorem GenerativeInfo.Fills.makeSupports {info : GenerativeInfo α} (h : info.Fills)
    {basis existing derived : List α} {label : Label} {owner : String}
    (hinfo : info = .uniform basis label)
    (hderives : info.makeSupports existing owner = .ok derived) : label.Fills derived := by
  intro hinternal hnil
  have hbasis := h basis label hinfo hinternal
  rw [hinfo, GenerativeInfo.makeSupports] at hderives
  split at hderives
  · cases hderives
  · cases hderives
    rename_i helements
    -- from two values on there is an element, and its first offset gives a point
    rcases existing with - | ⟨lower, - | ⟨upper, rest⟩⟩
    · exact helements (Nat.zero_le 1)
    · exact helements le_rfl
    · simp [points, hbasis] at hnil

/-! ## Parameters -/

/-- Values under internal labels are not empty, and neither are bases of internal supports. -/
def Policy.filled : Policy α where
  values _ values label := label.Fills values
  infos _ _ info := info.Fills

namespace SupportMap

variable {m : SupportMap α} {label : Label}

/-- An internal support is stored. -/
def StoresInternal (m : SupportMap α) : Prop :=
  ∃ x l, m.Stores x l ∧ l.internal = true

omit [Scalar α] in
theorem storesInternal_iff : m.hasInternal = true ↔ m.StoresInternal := by
  constructor
  · intro h
    obtain ⟨s, hs, hcovers⟩ := List.any_eq_true.1 h
    obtain ⟨l, hl, hinternal⟩ := List.any_eq_true.1 hcovers
    exact ⟨s.value, l, ⟨s, hs, rfl, hl⟩, hinternal⟩
  · rintro ⟨x, l, ⟨s, hs, -, hl⟩, hinternal⟩
    exact List.any_eq_true.2 ⟨s, hs, List.any_eq_true.2 ⟨l, hl, hinternal⟩⟩

theorem StoresInternal.addAll (h : m.StoresInternal) (values : List α) (label : Label) :
    (m.addAll values label).2.StoresInternal := by
  obtain ⟨x, l, hl, hinternal⟩ := h
  exact ⟨x, l, hl.addAll values label, hinternal⟩

/-- Values that are added under an internal label are internal supports. -/
theorem storesInternal_addAll (m : SupportMap α) {values : List α} (h : label.Fills values)
    (hinternal : label.internal = true) : (m.addAll values label).2.StoresInternal := by
  obtain ⟨x, hx⟩ := List.exists_mem_of_ne_nil values (h hinternal)
  obtain ⟨y, hy, -⟩ := exists_stores_addAll m label hx
  exact ⟨y, label, hy, hinternal⟩

end SupportMap

namespace Parameter

variable {q q' : Parameter α}

/-- If a parameter is known to have internal supports, it has some. -/
def Known (q : Parameter α) : Prop :=
  (∀ x ∈ q.supports.values, Scalar.Defined x) → q.hasInternal = true → q.supports.StoresInternal

/-- An internal support is known of only where one is stored, and this lasts. -/
structure Flagged (q : Parameter α) : Prop where
  derivable : q.Derivable
  tidy : q.Tidy
  fills : q.info.Fills
  known : q.Known

theorem Known.grown (h : q.Known) {values : List α} {label : Label} (hl : label.Fills values) :
    (q.grown values label).Known := by
  intro hdef hflag
  rcases Bool.or_eq_true_iff.1 hflag with hold | hnew
  · have hbefore := fun x hx => hdef x ((SupportMap.values_sublist_addAll ..).subset hx)
    exact (h hbefore hold).addAll values label
  · exact SupportMap.storesInternal_addAll q.supports hl hnew

/-- Supports that replace all others are all internal, or none is. -/
theorem known_replaced (q : Parameter α) {values : List α} {label : Label}
    (hl : label.Fills values) : (q.replaced values label).Known :=
  fun _ hflag => SupportMap.storesInternal_addAll .empty hl hflag

variable [LawfulScalar α]

/-- Where labels were taken away to the end, the flag was brought up to date. -/
theorem known_without (h : q.Tidy) {selectors : List Label} {internal : Bool}
    (noted : q.Noted selectors internal) : (q.without selectors internal).Known := by
  intro hdef hflag
  have hincreasing := h.ordered (Store.defined_of_strip hdef)
  rcases noted with ⟨hearly, -⟩ | ⟨-, rfl⟩
  · -- on increasing values, stripping goes through to the end
    rw [SupportMap.strip_eq hincreasing] at hearly
    cases hearly
  · exact SupportMap.storesInternal_iff.1 (Bool.and_eq_true_iff.1 hflag).2

theorem Flagged.growth (h : q.Flagged) (hs : q.Growth .filled q') : q'.Known := by
  cases hs with
  | note equations => exact h.known
  | add rounds storable allowed harmless => exact h.known.grown allowed
  | withdraw info own noted => exact known_without h.tidy noted
  | displace rounds storable allowed info own noted =>
    exact known_without (h.tidy.steps (steps_grown rounds storable)) noted
  | derive missing info derives rounds storable =>
    exact h.known.grown ((h.fills.makeSupports info derives).of_round rounds)
  | place rounds storable allowed none => exact known_replaced q allowed
  | underivable hnot => exact absurd h.derivable hnot

/-- Events that store no empty values under internal labels keep the flag exact. -/
theorem Flagged.event (h : q.Flagged) (hs : q.Event .filled q') : q'.Flagged := by
  refine ⟨hs.derivable h.derivable, h.tidy.steps (hs.steps h.derivable),
    hs.infos h.derivable h.fills, ?_⟩
  cases hs with
  | grow hgrowth => exact h.growth hgrowth
  | strip noted => exact known_without h.tidy noted
  | clear => exact fun _ hflag => by cases hflag
  | replace rounds storable allowed => exact known_replaced q allowed
  | redefine method info missing allowed => exact h.known

omit [LawfulScalar α] in
theorem Flagged.of_new (h : q.New) : q.Flagged where
  derivable := .of_new h
  tidy := .of_new h
  fills := h.info ▸ q.method.fills
  known _ hflag := by
    rw [h.hasInternal] at hflag
    cases hflag

end Parameter

/-! ## Requests -/

/-- The request stores no empty values under an internal label. -/
def Request.Fills : Request α → Prop
  | addMeasure _ data _ _ => ∀ row ∈ data.supports, data.label.Fills row
  | setSupports _ values label _ => ∀ l, label = .given l → l.Fills values
  | addSupports _ values label _ => ∀ l, label = .given l → l.Fills values
  | setGenerativeInfo _ info => ∀ info', info = .given info' → info'.Fills
  | _ => True

theorem Policy.admits_filled {values : List α} {label : Label} (h : label.Fills values) :
    Policy.filled.Admits values label :=
  fun _ _ hr _ => h.of_round hr

theorem Policy.open_filled : Policy.Open (α := α) .filled :=
  fun _ _ hpublic => admits_filled fun hinternal => Bool.noConfusion (hpublic.symm.trans hinternal)

theorem Request.Fills.obeys {request : Request α} (h : request.Fills) (m : Model α) :
    request.Obeys .filled m := by
  cases request with
  | addParameter domain name supports count digits method => exact fun _ => method.fills
  | addMeasure function data shaped name => exact fun row hrow => Policy.admits_filled (h row hrow)
  | setSupports p values label force => exact fun l hl => Policy.admits_filled (h l hl)
  | addSupports p values label checked => exact fun q l rounded hl hr _ => (h l hl).of_round hr
  | setGenerativeInfo p info => exact fun info' _ hinfo _ => h info' hinfo
  | setDerivativeMethod p method => exact fun method' _ _ _ => method'.fills
  | _ => trivial

/-- The generators that store supports under internal labels give as many as asked for. -/
def Environment.Fills (e : Environment α) : Prop :=
  ∀ label, label.internal = true → e.Delivers label

/-- Generated values that pass the check belong to a scalar domain, which gets some. -/
theorem Environment.Fills.generates {e : Environment α} (h : e.Fills) :
    e.Generates .filled := by
  intro e' hrules q method count source
  by_cases hscalar : ∃ d, q.domain = .scalar d
  · obtain ⟨d, hd⟩ := hscalar
    rw [hd]
    refine (Generation.ends_generate e' d method count (some q.digits) source).mono ?_
      fun _ _ => trivial
    intro found _ hfound rounded hr _
    refine Label.Fills.of_round (fun hinternal => (hfound fun kind generator => ?_).1) hr
    rw [hrules.generators]
    exact h found.2 hinternal kind generator
  · -- other domains have no bounds, so the check passes nothing that is generated for them
    refine .of_forall (fun found _ rounded _ hbounds => ?_) fun _ => trivial
    obtain ⟨lower, upper, hdomain, -⟩ := Store.between_of_checkBounds hbounds
    cases hd : q.domain with
    | scalar d => exact absurd ⟨d, hd⟩ hscalar
    | multivariate d => rw [hd] at hdomain; cases hdomain
    | collection parts => rw [hd] at hdomain; cases hdomain

/-- As long as no empty values are stored under internal labels and all supports are defined, a
parameter is known to have internal supports exactly if one of its supports has an internal
label. -/
theorem hasInternal_iff_of_requested [LawfulScalar α] {m : Model α}
    (h : RequestedBy (fun _ e request => e.Fills ∧ request.Fills) m) {p : Ref} {q : Parameter α}
    (hq : m.parameter (.given p) = .ok q) (hdef : ∀ x ∈ q.supports.values, Scalar.Defined x) :
    q.hasInternal = true ↔
      ∃ s ∈ q.supports.supports, ∃ l ∈ s.labels, l.internal = true := by
  have hflagged : q.Flagged := h.event_induction Policy.open_filled
    (fun m _ _ hfills => ⟨hfills.1.generates, hfills.2.obeys m⟩)
    (fun _ hnew _ => .of_new hnew) (fun _ _ hq hs => hq.event hs) p q hq
  constructor
  · intro hset
    obtain ⟨x, l, ⟨s, hs, -, hl⟩, hinternal⟩ := hflagged.known hdef hset
    exact ⟨s, hs, l, hl, hinternal⟩
  · -- without the flag all labels are public
    rintro ⟨s, hs, l, hl, hinternal⟩
    by_contra hunset
    have hhides := Parameter.hides_of_requested h.requested p q hq
    have hpublic := hhides (Bool.eq_false_iff.2 hunset) s.value l ⟨s, hs, rfl, hl⟩
    rw [hinternal] at hpublic
    cases hpublic

omit [Scalar α] in
theorem Environment.fills_default : ({} : Environment α).Fills :=
  fun label _ => delivers_of_builtin rfl label

/-- Derived supports are put in place, and a new support takes them away again. -/
theorem hasInternal_iff_of_requested_derived :
    let p : Ref := ⟨0, .parameter, 1⟩
    let requests : List (Request Float) :=
      [.addParameter (.scalar (.interval 0 1)) "t" (some [0, 1]) 0 (some 12)
        (.orthogonalCollocation 3),
      .addSupports p [] (.given .userDefined) true,
      .addGenerativeSupports p]
    let m : Model Float := Request.replay { id := 0 } requests
    let m' : Model Float := Request.replay m [.addSupports p [0.25] (.given .userDefined) true]
    RequestedBy (fun _ e request => e.Fills ∧ request.Fills) m ∧
      RequestedBy (fun _ e request => e.Fills ∧ request.Fills) m' ∧
      (∃ q, m.parameter (.given p) = .ok q ∧ (∀ x ∈ q.supports.values, Scalar.Defined x) ∧
        q.hasInternal = true ∧ ∃ s ∈ q.supports.supports, ∃ l ∈ s.labels, l.internal = true) ∧
      ∃ q, m'.parameter (.given p) = .ok q ∧ (∀ x ∈ q.supports.values, Scalar.Defined x) ∧
        q.hasInternal = false ∧ ¬ ∃ s ∈ q.supports.supports, ∃ l ∈ s.labels, l.internal = true := by
  intro p requests m m'
  have hr : RequestedBy (fun _ e request => e.Fills ∧ request.Fills) m := by
    refine .replay (.start 0 "model") ?_
    simp only [requests, List.forall_mem_cons, List.not_mem_nil, false_implies, implies_true,
      and_true]
    refine ⟨fun _ => ⟨Environment.fills_default, trivial⟩,
      fun _ => ⟨Environment.fills_default, fun l hl => ?_⟩,
      fun _ => ⟨Environment.fills_default, trivial⟩⟩
    cases hl
    exact fun hinternal => by cases hinternal
  have hr' : RequestedBy (fun _ e request => e.Fills ∧ request.Fills) m' := by
    refine .replay hr fun request hrequest _ => ⟨Environment.fills_default, ?_⟩
    rw [List.mem_singleton.1 hrequest]
    exact fun _ _ _ hnil => by cases hnil
  obtain ⟨q, hq, hdef, hset⟩ := Except.exists_of_decide (x := m.parameter (.given p))
    (fun q => (∀ x ∈ q.supports.values, (x == x) = true) ∧ q.hasInternal = true)
    (by decide +kernel)
  obtain ⟨q', hq', hdef', hunset⟩ := Except.exists_of_decide (x := m'.parameter (.given p))
    (fun q => (∀ x ∈ q.supports.values, (x == x) = true) ∧ q.hasInternal = false)
    (by decide +kernel)
  refine ⟨hr, hr', ⟨q, hq, hdef, hset, (hasInternal_iff_of_requested hr hq hdef).1 hset⟩,
    q', hq', hdef', hunset, fun hinternal => ?_⟩
  have hset' := (hasInternal_iff_of_requested hr' hq' hdef').2 hinternal
  rw [hunset] at hset'
  cases hset'

/-- No values that are added under an internal label are no internal supports, but they are taken
for some. -/
theorem not_hasInternal_iff_of_requested :
    ¬ ∀ (m : Model Float) (p : Ref) (q : Parameter Float), Requested m →
      m.parameter (.given p) = .ok q → (q.hasInternal = true ↔
        ∃ s ∈ q.supports.supports, ∃ l ∈ s.labels, l.internal = true) := by
  intro hall
  let p : Ref := ⟨0, .parameter, 1⟩
  let m : Model Float := Request.replay { id := 0 }
    [.addParameter (.scalar (.interval 0 1)) "t" (some [0, 1]) 0 (some 12)
      (.finiteDifference .backward),
    .addSupports p [] (.given .collocation) true]
  have hr : Requested m := .replay (.start 0 "model") _
  obtain ⟨q, hq, hset, hnone⟩ := Except.exists_of_decide (x := m.parameter (.given p))
    (fun q => q.hasInternal = true ∧
      ¬ ∃ s ∈ q.supports.supports, ∃ l ∈ s.labels, l.internal = true) (by decide +kernel)
  exact hnone ((hall m p q hr hq).1 hset)

end Discretization
