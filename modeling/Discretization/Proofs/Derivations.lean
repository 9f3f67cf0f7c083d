import Discretization.Proofs.Freshness
import Discretization.Proofs.Retention

/-!
# Derived Supports and Those They Are Derived From

Derived supports are put in place beside the supports that a parameter has, and stay there until a
value comes or goes. In between, supports only gain labels. So the derived supports in place are
those of the supports at that time. They are those of the supports as they are now where none of
them gained another label, which would make it a support to derive from, and where their label is
not used for anything else; then taking them away and putting them in place again changes nothing.

## Main definitions

* `Parameter.Materialized`: the parameter comes from an earlier state of it, in which derived
  supports were put in place that have stayed there since;
* `Parameter.Exclusive`: the label of derived supports is used for nothing else;
* `Parameter.Lists`: the supports stored under a label are the given ones;
* `Parameter.Matches`: they are those that the other supports give.

## Main results

* `exists_materialized`: derived supports that count as in place were put there;
* `Parameter.Beside.lists`, `ends_rederive`: exclusive derived supports are those of the time when
  they were put in place, and while the supports to derive from are the same, they can be taken away
  and put in place again;
* `matches_of_requested`: both for all models that come about by requests;
* `not_matches_of_requested`: a derived support that gains another label is one to derive from, and
  those in place do not match any more.
-/

namespace Discretization

open Relation (ReflTransGen)

deriving instance DecidableEq for Support, SupportMap, GenerativeInfo, Sampler, Distribution,
  ScalarDomain, Domain, Parameter

variable {α : Type} [Scalar α]

/-- Two values are the same or equal; an undefined value is the same as itself only. -/
def Scalar.Agrees (x y : α) : Prop := x = y ∨ (x == y) = true

/-! ## Adding values -/

namespace SupportMap

variable {m m' : SupportMap α} {x : α} {l label : Label}

/-- What is stored after an addition was stored before, or it was added. -/
theorem stores_of_add {value : α} (h : (m.add value label).2.Stores x l) :
    m.Stores x l ∨ l = label ∧ Scalar.Agrees x value := by
  obtain ⟨s, hs, rfl, hl⟩ := h
  -- a value that is there gets one more label, any other gets a row of its own
  cases hc : m.contains value with
  | true =>
    rw [add, if_pos hc] at hs
    obtain ⟨s₀, hs₀, rfl⟩ := List.mem_map.1 hs
    by_cases he : s₀.value == value
    · rw [if_pos he] at hl ⊢
      rcases Label.mem_insert.1 hl with hl | rfl
      · exact .inl ⟨s₀, hs₀, rfl, hl⟩
      · exact .inr ⟨rfl, .inr he⟩
    · rw [if_neg he] at hl ⊢
      exact .inl ⟨s₀, hs₀, rfl, hl⟩
  | false =>
    rw [add_of_not_contains label hc] at hs
    rcases (List.mem_insertIdx (positionAfter_le _ _)).1 hs with rfl | hs
    · exact .inr ⟨List.mem_singleton.1 hl, .inl rfl⟩
    · exact .inl ⟨s, hs, rfl, hl⟩

theorem stores_of_addAll {values : List α} (h : (m.addAll values label).2.Stores x l) :
    m.Stores x l ∨ l = label ∧ ∃ y ∈ values, Scalar.Agrees x y := by
  induction values generalizing m with
  | nil => exact .inl h
  | cons value rest ih =>
    rw [addAll_cons] at h
    rcases ih h with h | ⟨hl, y, hy, hxy⟩
    · rcases stores_of_add h with h | ⟨hl, hxy⟩
      · exact .inl h
      · exact .inr ⟨hl, value, List.mem_cons_self, hxy⟩
    · exact .inr ⟨hl, y, List.mem_cons_of_mem value hy, hxy⟩

/-- An added value is stored under the label, in the form given or in an equal one. -/
theorem exists_stores_add (m : SupportMap α) (value : α) (label : Label) :
    ∃ x, (m.add value label).2.Stores x label ∧ Scalar.Agrees x value := by
  cases hc : m.contains value with
  | true =>
    obtain ⟨s, hs, he⟩ := List.any_eq_true.1 hc
    refine ⟨s.value, ⟨{ s with labels := label.insert s.labels }, ?_, rfl, ?_⟩, .inr he⟩
    · rw [add, if_pos hc]
      exact List.mem_map.2 ⟨s, hs, if_pos he⟩
    · exact Label.mem_insert.2 (.inr rfl)
  | false =>
    rw [add_of_not_contains label hc]
    exact ⟨value, ⟨⟨value, [label]⟩, (List.mem_insertIdx (positionAfter_le _ _)).2 (.inl rfl), rfl,
      List.mem_singleton_self label⟩, .inl rfl⟩

theorem exists_stores_addAll (m : SupportMap α) {values : List α} (label : Label)
    (hx : x ∈ values) :
    ∃ y, (m.addAll values label).2.Stores y label ∧ Scalar.Agrees y x := by
  induction values generalizing m with
  | nil => cases hx
  | cons value rest ih =>
    rw [addAll_cons]
    rcases List.mem_cons.1 hx with rfl | hx
    · obtain ⟨y, hy, hyx⟩ := exists_stores_add m x label
      exact ⟨y, hy.addAll rest label, hyx⟩
    · exact ih _ hx

/-- Where a value goes depends on the values only. -/
theorem positionAfter_eq (supports : List (Support α)) (value : α) :
    positionAfter supports value = bisect (fun i => match (supports.map (·.value))[i]? with
      | some x => !decide (value < x)
      | none => false) 0 (supports.map (·.value)).length := by
  unfold positionAfter
  rw [List.length_map]
  congr 1
  funext i
  rw [List.getElem?_map]
  cases supports[i]? <;> rfl

/-- The values after an addition depend on the values before only. -/
theorem values_add_congr (h : m.values = m'.values) (value : α) (label label' : Label) :
    (m.add value label).2.values = (m'.add value label').2.values := by
  have hcontains : m.contains value = m'.contains value := by
    have hany : ∀ m : SupportMap α, m.contains value = m.values.any (· == value) := fun m => by
      rw [contains, values, List.any_map]
      rfl
    rw [hany, hany, h]
  cases hc : m.contains value with
  | true => rw [(add_of_contains label hc).2, (add_of_contains label' (hcontains ▸ hc)).2, h]
  | false =>
    rw [add_of_not_contains label hc, add_of_not_contains label' (hcontains ▸ hc)]
    simp only [values, List.map_insertIdx, positionAfter_eq] at h ⊢
    rw [h]

theorem values_addAll_congr (h : m.values = m'.values) (values : List α) (label label' : Label) :
    (m.addAll values label).2.values = (m'.addAll values label').2.values := by
  induction values generalizing m m' with
  | nil => exact h
  | cons value rest ih =>
    rw [addAll_cons, addAll_cons]
    exact ih (values_add_congr h value label label')

/-- What is stored after stripping was stored before. -/
theorem stores_of_strip {selectors : List Label} (h : (m.strip selectors).1.Stores x l) :
    m.Stores x l := by
  obtain ⟨s, hs, rfl, hl⟩ := h
  obtain ⟨s₀, hs₀, rfl | hstripped⟩ := mem_strip hs
  · exact ⟨s, hs₀, rfl, hl⟩
  · unfold Support.stripped at hstripped
    split at hstripped
    · cases hstripped
    · cases hstripped
      exact ⟨s₀, hs₀, rfl, (List.mem_filter.1 hl).1⟩

end SupportMap

/-! ## Derived supports in place -/

/-- A support has the labels that it had, and perhaps more. -/
structure Support.Gains (s s' : Support α) : Prop where
  value : s'.value = s.value
  labels : s.labels ⊆ s'.labels

namespace Parameter

variable {q q' before : Parameter α} {basis rounded : List α} {label : Label}

/-- A parameter comes about by events: it was new at some time. -/
def Arises (q : Parameter α) : Prop :=
  ∃ new : Parameter α, new.New ∧ ReflTransGen (Event .free) new q

/-- An event that leaves derived supports in place. -/
def Stays (q q' : Parameter α) : Prop :=
  q.Event .free q' ∧ q'.hasGenerative = true

/-- Derived supports in place: an earlier state of the parameter had none, they were put in place
beside the supports of that state, and all events since have left them in place. -/
structure Materialized (q before : Parameter α) (basis : List α) (label : Label)
    (rounded : List α) : Prop where
  arises : before.Arises
  missing : before.hasGenerative = false
  info : before.info = .uniform basis label
  own : label.isSelector = false
  derives : ∃ derived,
    (∀ owner, before.info.makeSupports (before.supports.baseValues label) owner = .ok derived) ∧
      roundList before.digits derived = .ok rounded
  since : ReflTransGen Stays { before.grown rounded label with hasGenerative := true } q

/-- The supports of a parameter are those from before with derived ones put in place beside them, up
to labels gained since. -/
structure Beside (q before : Parameter α) (basis : List α) (label : Label) (rounded : List α) :
    Prop where
  info : q.info = .uniform basis label
  own : label.isSelector = false
  derives : ∃ derived,
    (∀ owner, q.info.makeSupports (before.supports.baseValues label) owner = .ok derived) ∧
      roundList q.digits derived = .ok rounded
  supports : List.Forall₂ Support.Gains (before.supports.addAll rounded label).2.supports
    q.supports.supports

/-- Nothing was stored under a label before derived supports were put in place under it, and no
other support gained it since. -/
structure Exclusive (q before : Parameter α) (label : Label) (rounded : List α) : Prop where
  apart : ∀ x, ¬ before.supports.Stores x label
  own : ∀ x, q.supports.Stores x label → (before.supports.addAll rounded label).2.Stores x label

/-- The supports stored under a label are exactly the given ones. -/
def Lists (q : Parameter α) (label : Label) (values : List α) : Prop :=
  (∀ x ∈ values, ∃ y, q.supports.Stores y label ∧ Scalar.Agrees y x) ∧
    ∀ y, q.supports.Stores y label → ∃ x ∈ values, Scalar.Agrees y x

/-- The supports stored under a label are exactly those that the others give. -/
def Matches (q : Parameter α) (label : Label) : Prop :=
  ∃ derived rounded,
    (∀ owner, q.info.makeSupports (q.supports.baseValues label) owner = .ok derived) ∧
    roundList q.digits derived = .ok rounded ∧ q.Lists label rounded

/-- Whose supports others are derived from matters only for the error where that fails. -/
theorem makeSupports_owner {info : GenerativeInfo α} {existing derived : List α} {owner : String}
    (h : info.makeSupports existing owner = .ok derived) (owner' : String) :
    info.makeSupports existing owner' = .ok derived := by
  cases info with
  | undefined => cases h
  | none => exact h
  | uniform basis label =>
    dsimp only [GenerativeInfo.makeSupports] at h ⊢
    split at h
    · cases h
    · rename_i hseveral
      rw [if_neg hseveral]
      exact h

/-- Derived supports that count as in place were put there. -/
def Explained (q : Parameter α) : Prop :=
  q.hasGenerative = true → ∃ before basis label rounded, q.Materialized before basis label rounded

/-- An event puts derived supports in place beside the supports that the parameter has, or leaves
them there. -/
theorem Event.explained (h : q.Event .free q') (hd : q.Derivable) (ha : q.Arises)
    (hq : q.Explained) : q'.Explained := by
  intro hset
  cases hbefore : q.hasGenerative with
  | true =>
    obtain ⟨before, basis, label, rounded, hm⟩ := hq hbefore
    exact ⟨before, basis, label, rounded, { hm with since := hm.since.tail ⟨h, hset⟩ }⟩
  | false =>
    -- only one event sets the flag
    cases h with
    | grow hgrowth =>
      cases hgrowth with
      | note equations => exact absurd (hbefore.symm.trans hset) nofun
      | add rounds storable allowed harmless => exact absurd (hbefore.symm.trans hset) nofun
      | withdraw info own noted => cases hset
      | displace rounds storable allowed info own noted => cases hset
      | @derive basis derived rounded label owner missing info derives rounds storable =>
        exact ⟨q, basis, label, rounded, ha, hbefore, info, storable,
          ⟨derived, makeSupports_owner derives, rounds⟩, .refl⟩
      | place rounds storable allowed none => cases hset
      | underivable hnot => exact absurd hd hnot
    | strip noted => cases hset
    | clear => cases hset
    | replace rounds storable allowed => cases hset
    | redefine method info missing allowed => exact absurd (hbefore.symm.trans hset) nofun

/-- All parameters arise, and derived supports that count as in place were put there. -/
theorem arises_and_explained {m : Model α} (h : Requested m) {p : Ref}
    (hq : m.parameter (.given p) = .ok q) : q.Arises ∧ q.Explained := by
  refine (h.event_induction (P := fun q => q.Derivable ∧ q.Arises ∧ q.Explained)
    (fun q hnew => ?_) (fun q q' ⟨hd, ha, he⟩ hevent => ?_) p q hq).2
  · refine ⟨.of_new hnew, ⟨q, hnew, .refl⟩, fun hset => ?_⟩
    rw [hnew.hasGenerative] at hset
    cases hset
  · obtain ⟨new, hnew, hrun⟩ := ha
    exact ⟨hevent.derivable hd, ⟨new, hnew, hrun.tail hevent⟩,
      hevent.explained hd ⟨new, hnew, hrun⟩ he⟩

/-- Derived supports that count as in place were put there beside the supports that the parameter
had, and have stayed there since. -/
theorem exists_materialized {m : Model α} (h : Requested m) {p : Ref}
    (hq : m.parameter (.given p) = .ok q) (hset : q.hasGenerative = true) :
    ∃ before basis label rounded, q.Materialized before basis label rounded :=
  (arises_and_explained h hq).2 hset

/-- Where derived supports stay in place, the others only gain labels. -/
theorem Beside.stays (h : q.Beside before basis label rounded) (hset : q.hasGenerative = true)
    (hs : q.Stays q') : q'.Beside before basis label rounded := by
  obtain ⟨hevent, hset'⟩ := hs
  cases hevent with
  | grow hgrowth =>
    cases hgrowth with
    | note equations => exact ⟨h.info, h.own, h.derives, h.supports⟩
    | @add values added l rounds storable allowed harmless =>
      have hold := harmless.resolve_left (by simp [hset])
      obtain ⟨g, hg, hmap⟩ := Store.supports_addAll_of_not_new hold
      refine ⟨h.info, h.own, h.derives, ?_⟩
      change List.Forall₂ Support.Gains _ (q.supports.addAll added l).2.supports
      rw [hmap, List.forall₂_map_right_iff]
      exact h.supports.imp fun s s' hs =>
        ⟨(hg s').1.trans hs.value, List.Subset.trans hs.labels (hg s').2⟩
    | withdraw info own noted => cases hset'
    | displace rounds storable allowed info own noted => cases hset'
    | derive missing info derives rounds storable => exact absurd (hset.symm.trans missing) nofun
    | place rounds storable allowed none => cases hset'
    | underivable hnot => exact absurd (fun _ => ⟨basis, label, h.info, h.own⟩) hnot
  | strip noted => cases hset'
  | clear => cases hset'
  | replace rounds storable allowed => cases hset'
  | redefine method info missing allowed => exact absurd (hset.symm.trans missing) nofun

/-- Since derived supports were put in place, supports have only gained labels. -/
theorem Materialized.beside (h : q.Materialized before basis label rounded) :
    q.Beside before basis label rounded ∧ q.hasGenerative = true := by
  have hsince := h.since
  induction hsince with
  | refl =>
    exact ⟨⟨h.info, h.own, h.derives,
      List.forall₂_same.2 fun s _ => ⟨rfl, List.Subset.refl _⟩⟩, rfl⟩
  | tail hrun hlast ih =>
    obtain ⟨hbeside, hset⟩ := ih { h with since := hrun }
    exact ⟨hbeside.stays hset hlast, hlast.2⟩

/-! ## Exclusive derived supports -/

namespace Beside

/-- Whatever was stored when derived supports were put in place is still stored. -/
theorem stores (h : q.Beside before basis label rounded) {x : α} {l : Label}
    (hx : (before.supports.addAll rounded label).2.Stores x l) : q.supports.Stores x l := by
  obtain ⟨s, hs, rfl, hl⟩ := hx
  obtain ⟨s', hs', hgains⟩ := exists_right_of_mem h.supports hs
  exact ⟨s', hs', hgains.value, hgains.labels hl⟩

theorem values_eq (h : q.Beside before basis label rounded) :
    q.supports.values = (before.supports.addAll rounded label).2.values := by
  have same : ∀ {xs ys : List (Support α)}, List.Forall₂ Support.Gains xs ys →
      ys.map (·.value) = xs.map (·.value) := by
    intro xs ys hsame
    induction hsame with
    | nil => rfl
    | cons hs _ ih => rw [List.map_cons, List.map_cons, ih, hs.value]
  exact same h.supports

/-- Exclusive derived supports are those that were put in place. -/
theorem lists (h : q.Beside before basis label rounded) (he : q.Exclusive before label rounded) :
    q.Lists label rounded := by
  refine ⟨fun x hx => ?_, fun y hy => ?_⟩
  · obtain ⟨y, hy, hyx⟩ := SupportMap.exists_stores_addAll before.supports label hx
    exact ⟨y, h.stores hy, hyx⟩
  · exact ((SupportMap.stores_of_addAll (he.own y hy)).resolve_left (he.apart y)).2

/-- While the supports to derive from are the same, they are those that the others give. -/
theorem matches_of_base (h : q.Beside before basis label rounded)
    (he : q.Exclusive before label rounded)
    (hbase : q.supports.baseValues label = before.supports.baseValues label) : q.Matches label := by
  obtain ⟨derived, hmakes, hrounds⟩ := h.derives
  exact ⟨derived, rounded, by rwa [hbase], hrounds, h.lists he⟩

end Beside

end Parameter

namespace SupportMap

variable {m : SupportMap α} {label : Label}

omit [Scalar α] in
/-- Supports without a label have another one, if any. -/
theorem baseValues_of_apart (h : ∀ x, ¬ m.Stores x label) : m.baseValues label = m.values := by
  unfold baseValues values
  rw [List.filter_eq_self.2]
  intro s hs
  rw [bne_iff_ne]
  intro hl
  exact h s.value ⟨s, hs, rfl, by rw [hl]; exact List.mem_singleton_self label⟩

/-- On increasing values, exactly the labels that no selector covers are left. -/
theorem stores_strip_iff [LawfulScalar α] (h : Increasing m.values) {selectors : List Label}
    {x : α} {l : Label} :
    (m.strip selectors).1.Stores x l ↔ m.Stores x l ∧ Label.coveredBy selectors l = false := by
  refine ⟨fun hx => ⟨stores_of_strip hx, ?_⟩, fun ⟨hx, hl⟩ => hx.strip hl⟩
  obtain ⟨s, hs, -, hl⟩ := hx
  rw [strip_eq h] at hs
  obtain ⟨s₀, -, hstripped⟩ := List.mem_filterMap.1 hs
  unfold Support.stripped at hstripped
  split at hstripped
  · cases hstripped
  · cases hstripped
    simpa using (List.mem_filter.1 hl).2

theorem not_stores_strip [LawfulScalar α] (h : Increasing m.values)
    (hown : label.isSelector = false) (x : α) : ¬ (m.strip [label]).1.Stores x label := by
  intro hx
  have hcovered := ((stores_strip_iff h).1 hx).2
  rw [Label.coveredBy, List.any_cons, Store.covers_eq_beq hown, beq_self_eq_true] at hcovered
  cases hcovered

omit [Scalar α] in
/-- All labels of a support are covered by one that can be stored just if it is the only one. -/
theorem allCovered_singleton {s : Support α} (hs : s.Labelled) (hown : label.isSelector = false) :
    Label.allCovered [label] s.labels = (s.labels == [label]) := by
  -- a label that is no selector covers itself only
  have hcover : ∀ l, Label.coveredBy [label] l = (l == label) := fun l => by
    rw [Label.coveredBy, List.any_cons, List.any_nil, Bool.or_false, Store.covers_eq_beq hown]
  obtain ⟨first, rest, hcons⟩ := List.exists_cons_of_ne_nil hs.nonempty
  have hnodup := hs.nodup
  rw [hcons] at hnodup ⊢
  rw [Label.allCovered, Bool.eq_iff_iff, List.all_eq_true, beq_iff_eq]
  simp only [hcover, beq_iff_eq]
  constructor
  · intro hall
    -- a second label would repeat the first, and labels of a support are distinct
    obtain rfl := hall first List.mem_cons_self
    cases rest with
    | nil => rfl
    | cons second rest =>
      obtain rfl := hall second (by simp)
      simp at hnodup
  · intro heq l hl
    rw [heq] at hl
    exact List.mem_singleton.1 hl

/-- Stripping the label of derived supports leaves those that others are derived from. -/
theorem values_strip (hdone : (m.strip [label]).2 = none)
    (hlabelled : ∀ s ∈ m.supports, s.Labelled) (hown : label.isSelector = false) :
    (m.strip [label]).1.values = m.baseValues label := by
  rw [values, strip_of_done hdone, baseValues]
  clear hdone
  -- support by support
  generalize m.supports = supports at hlabelled ⊢
  induction supports with
  | nil => rfl
  | cons s rest ih =>
    have ih := ih fun s hs => hlabelled s (List.mem_cons_of_mem _ hs)
    rw [List.filterMap_cons, List.filter_cons, Support.stripped, bne,
      allCovered_singleton (hlabelled s List.mem_cons_self) hown]
    cases s.labels == [label] with
    | true => simp [ih]
    | false => simp [ih]

end SupportMap

/-! ## Deriving again -/

namespace Parameter.Beside

variable [LawfulScalar α] {q before : Parameter α} {basis rounded : List α} {label : Label}

omit [LawfulScalar α] in
/-- Where their label was not used before, all supports were such that others are derived from. -/
theorem baseValues_before (he : q.Exclusive before label rounded) :
    before.supports.baseValues label = before.supports.values :=
  SupportMap.baseValues_of_apart he.apart

/-- Without the derived supports, the values are those from before. -/
theorem values_strip (h : q.Beside before basis label rounded)
    (he : q.Exclusive before label rounded)
    (hbase : q.supports.baseValues label = before.supports.baseValues label)
    (hordered : Increasing q.supports.values) (hlabelled : ∀ s ∈ q.supports.supports, s.Labelled) :
    (q.supports.strip [label]).1.values = before.supports.values := by
  have hdone : (q.supports.strip [label]).2 = none := by rw [SupportMap.strip_eq hordered]
  rw [SupportMap.values_strip hdone hlabelled h.own, hbase, baseValues_before he]

/-- Derived supports that are put in place again are stored as before. -/
theorem stores_iff (h : q.Beside before basis label rounded)
    (he : q.Exclusive before label rounded)
    (hbase : q.supports.baseValues label = before.supports.baseValues label)
    (hordered : Increasing q.supports.values) (hlabelled : ∀ s ∈ q.supports.supports, s.Labelled) :
    let again := ((q.supports.strip [label]).1.addAll rounded label).2
    again.values = q.supports.values ∧ ∀ x l, again.Stores x l ↔ q.supports.Stores x l := by
  intro again
  have hvalues : again.values = q.supports.values := by
    rw [h.values_eq]
    exact SupportMap.values_addAll_congr (h.values_strip he hbase hordered hlabelled) rounded label
      label
  have mem_values : ∀ {m : SupportMap α} {x : α} {l : Label}, m.Stores x l → x ∈ m.values := by
    rintro m _ l ⟨s, hs, rfl, -⟩
    exact List.mem_map_of_mem hs
  -- two stored values that agree with one derived value are the same
  have unique : ∀ {x y z : α}, x ∈ q.supports.values → y ∈ q.supports.values →
      Scalar.Agrees x z → Scalar.Agrees y z → x = y := by
    intro x y z hx hy hxz hyz
    refine hordered.eq_of_beq hx hy ?_
    have hxx := hordered.defined x hx
    rcases hxz with rfl | hxz <;> rcases hyz with rfl | hyz
    · exact hxx
    · exact LawfulScalar.beq_symm hyz
    · exact hxz
    · exact LawfulScalar.beq_trans hxz (LawfulScalar.beq_symm hyz)
  refine ⟨hvalues, fun x l => ⟨fun hx => ?_, fun hx => ?_⟩⟩
  · rcases SupportMap.stores_of_addAll hx with hkept | ⟨rfl, z, hz, hxz⟩
    · exact SupportMap.stores_of_strip hkept
    · obtain ⟨y, hy, hyz⟩ := SupportMap.exists_stores_addAll before.supports l hz
      have hy := h.stores hy
      rw [unique (hvalues ▸ mem_values hx) (mem_values hy) hxz hyz]
      exact hy
  · by_cases hl : l = label
    · -- what is stored under the label was derived, in the form given or in an equal one
      subst hl
      obtain ⟨z, hz, hxz⟩ :=
        ((SupportMap.stores_of_addAll (he.own x hx)).resolve_left (he.apart x)).2
      obtain ⟨y, hy, hyz⟩ :=
        SupportMap.exists_stores_addAll (q.supports.strip [l]).1 l hz
      rw [unique (mem_values hx) (hvalues ▸ mem_values hy) hxz hyz]
      exact hy
    · exact (hx.strip (Store.coveredBy_singleton h.own (Ne.symm hl))).addAll rounded label

end Parameter.Beside

namespace Store

open Operation

variable {w : Workspace α} {p : Ref} {q : Parameter α}

/-- Missing derived supports are put in place where they can be derived and rounded. -/
theorem ends_addGenerative_of_missing (hq : w.model.parameter (.given p) = .ok q)
    (hmissing : q.hasGenerative = false) {basis derived rounded : List α} {label : Label}
    (hinfo : q.info = .uniform basis label) (hown : label.isSelector = false)
    (hmakes : ∀ owner, q.info.makeSupports (q.supports.baseValues label) owner = .ok derived)
    (hrounds : roundList q.digits derived = .ok rounded) :
    Ends (addGenerative p) w
      (fun _ w' => ∃ equations, w'.model.parameter (.given p) = .ok
        { q.grown rounded label with hasGenerative := true, hasEquations := equations })
      fun _ => False := by
  unfold addGenerative
  rw [ends_bind, ends_query_of hq, ends_ite]
  refine ⟨fun hset => absurd (hmissing.symm.trans hset) nofun, fun _ => ?_⟩
  have hlabel : q.info.label = .ok label := by rw [hinfo]; rfl
  rw [hinfo] at hmakes hlabel ⊢
  dsimp only
  rw [ends_bind, ends_check_of hlabel, ends_bind, ends_check_of (hmakes _), ends_bind]
  refine (ends_add_of_missing hq hmissing derived (.given label) false).mono ?_ ?_
  · rintro _ w₁ ⟨l, rounded', equations, hl, -, hr, hq₁⟩
    cases hl
    obtain rfl : rounded = rounded' := Except.ok.inj (hrounds.symm.trans hr)
    rw [ends_modifyModel]
    exact ⟨equations, Model.parameter_modifyParameter hq₁ _⟩
  · -- unchecked, the addition fails for the label or the rounding only
    rintro w' ⟨-, hchecked⟩
    cases hchecked label rounded rfl hown hrounds

/-- While the supports to derive from are the same, exclusive derived supports can be taken away and
put in place again, and then everything is stored as before. -/
theorem ends_rederive [LawfulScalar α] (hq : w.model.parameter (.given p) = .ok q)
    (hset : q.hasGenerative = true) {before : Parameter α} {basis rounded : List α} {label : Label}
    (h : q.Beside before basis label rounded) (he : q.Exclusive before label rounded)
    (hbase : q.supports.baseValues label = before.supports.baseValues label)
    (hordered : Increasing q.supports.values) (hlabelled : ∀ s ∈ q.supports.supports, s.Labelled) :
    Ends (do resetGenerative p; addGenerative p) w
      (fun _ w' => ∃ q', w'.model.parameter (.given p) = .ok q' ∧ q'.hasGenerative = true ∧
        q'.supports.values = q.supports.values ∧
        ∀ x l, q'.supports.Stores x l ↔ q.supports.Stores x l)
      fun _ => False := by
  rw [ends_bind]
  refine (ends_resetGenerative_placed hq hset h.info h.own).mono ?_ ?_
  · rintro _ w₁ ⟨internal, -, hq₁⟩
    obtain ⟨derived, hmakes, hrounds⟩ := h.derives
    -- what is left gives the same derived supports as the supports from before did
    have hagain : ∀ owner,
        q.info.makeSupports ((q.supports.strip [label]).1.baseValues label) owner =
          .ok derived := by
      rwa [SupportMap.baseValues_of_apart (SupportMap.not_stores_strip hordered h.own),
        h.values_strip he hbase hordered hlabelled, ← Parameter.Beside.baseValues_before he]
    refine (ends_addGenerative_of_missing hq₁ rfl h.info h.own hagain hrounds).mono ?_ fun _ h => h
    rintro _ w₂ ⟨equations, hq₂⟩
    exact ⟨_, hq₂, rfl, h.stores_iff he hbase hordered hlabelled⟩
  · rintro w' ⟨hfailed, -⟩
    rw [SupportMap.strip_eq hordered] at hfailed
    cases hfailed

end Store

/-! ## All models -/

/-- In every model that comes about by requests, derived supports that count as in place were put
there beside the supports of an earlier state of the parameter, and have stayed there since. Where
their label is used for nothing else, the supports stored under it are exactly the rounded ones that
the supports of that time gave. While the supports to derive from are still the same, these are the
rounded ones that the other supports give; and if all supports are defined, taking the derived ones
away and putting them in place again succeeds and restores all supports with their labels. -/
theorem matches_of_requested [LawfulScalar α] {m : Model α} (h : Requested m) {p : Ref}
    {q : Parameter α} (hq : m.parameter (.given p) = .ok q) (hset : q.hasGenerative = true) :
    (∃ before basis label rounded, q.Materialized before basis label rounded) ∧
    ∀ before basis label rounded, q.Materialized before basis label rounded →
      q.Exclusive before label rounded → q.Lists label rounded ∧
        (q.supports.baseValues label = before.supports.baseValues label →
          q.Matches label ∧ ((∀ x ∈ q.supports.values, Scalar.Defined x) → ∀ e : Environment α,
            Ends (do Store.resetGenerative p; Store.addGenerative p) ⟨e, m⟩
              (fun _ w' => ∃ q', w'.model.parameter (.given p) = .ok q' ∧ q'.hasGenerative = true ∧
                q'.supports.values = q.supports.values ∧
                ∀ x l, q'.supports.Stores x l ↔ q.supports.Stores x l)
              fun _ => False)) := by
  refine ⟨Parameter.exists_materialized h hq hset, fun before basis label rounded hm he => ?_⟩
  obtain ⟨hbeside, -⟩ := hm.beside
  have htidy : q.Tidy := h.parameter_induction (fun _ hnew => .of_new hnew)
    (fun _ _ hq hs => hq.step hs) p q hq
  exact ⟨hbeside.lists he, fun hbase => ⟨hbeside.matches_of_base he hbase, fun hdef e =>
    Store.ends_rederive hq hset hbeside he hbase (htidy.ordered hdef) htidy.labelled⟩⟩

/-- Half-way points derived over the unit interval, where a support that was not derived has got one
more label since. -/
theorem matches_of_requested_labelled :
    let p : Ref := ⟨0, .parameter, 1⟩
    let m₀ : Model ℚ := Request.replay { id := 0 }
      [.addParameter (.scalar (.interval 0 1)) "t" (some [0, 1]) 0 (some 6)
        (.orthogonalCollocation 3)]
    let m : Model ℚ := Request.replay m₀
      [.addGenerativeSupports p, .addSupports p [1] (.given .uniformGrid) true]
    Requested m ∧ ∃ before q, m₀.parameter (.given p) = .ok before ∧
      m.parameter (.given p) = .ok q ∧ q.hasGenerative = true ∧
      q.Materialized before [1 / 2] .collocation [1 / 2] ∧
      q.Exclusive before .collocation [1 / 2] ∧
      q.supports.baseValues .collocation = before.supports.baseValues .collocation ∧
      q.Matches .collocation := by
  intro p m₀ m
  have hr₀ : Requested m₀ := .replay (.start 0 "model") _
  have hr : Requested m := hr₀.replay _
  let before : Parameter ℚ :=
    { name := "t", domain := .scalar (.interval 0 1), digits := 6
      method := .orthogonalCollocation 3, info := .uniform [1 / 2] .collocation
      supports := ⟨[⟨0, [.userDefined]⟩, ⟨1, [.userDefined]⟩]⟩ }
  let placed : Parameter ℚ := { before.grown [1 / 2] .collocation with hasGenerative := true }
  let q : Parameter ℚ := placed.grown [1] .uniformGrid
  have hbefore : m₀.parameter (.given p) = .ok before :=
    Except.eq_ok_of_toOption (by decide +kernel)
  have hq : m.parameter (.given p) = .ok q := Except.eq_ok_of_toOption (by decide +kernel)
  have hround : ∀ x : ℚ, x = 1 / 2 ∨ x = 1 →
      (roundList 6 [x] : Except (Error ℚ) (List ℚ)) = .ok [x] := by
    rintro x (rfl | rfl) <;> exact Except.eq_ok_of_toOption (by decide +kernel)
  have hmaterialized : q.Materialized before [1 / 2] .collocation [1 / 2] := by
    refine ⟨(Parameter.arises_and_explained hr₀ hbefore).1, rfl, rfl, rfl,
      ⟨[1 / 2], fun owner => ?_, hround _ (.inl rfl)⟩, .single ⟨.grow ?_, rfl⟩⟩
    · exact congrArg (fun x : ℚ => Except.ok [x]) (by norm_num [GenerativeInfo.point])
    · exact .add (hround 1 (.inr rfl)) rfl trivial (.inr (by decide +kernel))
  have hexclusive : q.Exclusive before .collocation [1 / 2] := by
    have hplaced : placed.supports.supports = [⟨0, [.userDefined]⟩, ⟨1 / 2, [.collocation]⟩,
      ⟨1, [.userDefined]⟩] := by decide +kernel
    have hnow : q.supports.supports = [⟨0, [.userDefined]⟩, ⟨1 / 2, [.collocation]⟩,
      ⟨1, [.userDefined, .uniformGrid]⟩] := by decide +kernel
    refine ⟨?_, ?_⟩
    · rintro x ⟨s, hs, -, hl⟩
      simp only [before, List.mem_cons, List.not_mem_nil, or_false] at hs
      rcases hs with rfl | rfl <;> cases List.mem_singleton.1 hl
    · rintro x ⟨s, hs, rfl, hl⟩
      rw [hnow] at hs
      simp only [List.mem_cons, List.not_mem_nil, or_false] at hs
      rcases hs with rfl | rfl | rfl
      · cases List.mem_singleton.1 hl
      · exact ⟨⟨1 / 2, [.collocation]⟩, hplaced ▸ by simp, rfl, hl⟩
      · simp [Label.userDefined, Label.collocation, Label.uniformGrid] at hl
  have hbase : q.supports.baseValues .collocation = before.supports.baseValues .collocation := by
    decide +kernel
  exact ⟨hr, before, q, hbefore, hq, rfl, hmaterialized, hexclusive, hbase,
    (((matches_of_requested hr hq rfl).2 _ _ _ _ hmaterialized hexclusive).2 hbase).1⟩

/-- A derived support that is stored once more, on purpose, is one that others are derived from, yet
those in place stay as they are. -/
theorem not_matches_of_requested :
    ¬ ∀ (m : Model ℚ) (p : Ref) (q : Parameter ℚ) (basis : List ℚ) (label : Label), Requested m →
      m.parameter (.given p) = .ok q → q.hasGenerative = true → q.info = .uniform basis label →
        q.Matches label := by
  intro hall
  let p : Ref := ⟨0, .parameter, 1⟩
  let m : Model ℚ := Request.replay { id := 0 }
    [.addParameter (.scalar (.interval 0 1)) "t" (some [0, 1]) 0 (some 6)
      (.orthogonalCollocation 3),
    .addGenerativeSupports p,
    .addSupports p [1 / 2] (.given .userDefined) true]
  have hr : Requested m := .replay (.start 0 "model") _
  obtain ⟨q, hq, hinfo, hdigits, hset, hstored, hbase⟩ := Except.exists_of_decide
    (x := m.parameter (.given p)) (fun q => q.info = .uniform [1 / 2] .collocation ∧
      q.digits = 6 ∧ q.hasGenerative = true ∧
      (∀ s ∈ q.supports.supports, .collocation ∈ s.labels → s.value = 1 / 2) ∧
      q.supports.baseValues .collocation = [0, 1 / 2, 1]) (by decide +kernel)
  obtain ⟨derived, rounded, hmakes, hrounds, hlists, -⟩ := hall m p q _ _ hr hq hset hinfo
  -- the others are the ends of the interval and its middle, and give the middles between these
  obtain ⟨derived', hmakes', hrounds'⟩ := Except.exists_of_decide
    (x := (GenerativeInfo.uniform [1 / 2] .collocation : GenerativeInfo ℚ).makeSupports
      [0, 1 / 2, 1] "t")
    (fun derived => (roundList 6 derived : Except (Error ℚ) _).toOption = some [1 / 4, 3 / 4])
    (by decide +kernel)
  rw [hinfo, hbase] at hmakes
  obtain rfl : derived = derived' := Except.ok.inj ((hmakes "t").symm.trans hmakes')
  rw [← hdigits, hrounds] at hrounds'
  cases hrounds'
  obtain ⟨y, ⟨s, hs, rfl, hl⟩, hagrees⟩ := hlists (1 / 4) List.mem_cons_self
  have hne : (1 / 2 : ℚ) ≠ 1 / 4 := by norm_num
  rw [hstored s hs hl] at hagrees
  rcases hagrees with heq | heq
  · exact hne heq
  · exact hne (ExactScalar.beq_iff.1 heq)

end Discretization
