import Discretization.Proofs.Contributions

/-!
# Pairs of Values and Labels

The supports of a parameter are a table from values to labels, and read as such they are a set of
pairs of a value, up to its form, and a label. Adding values under a label is a union with the pairs
that they make with it, whichever of the values are new. New values also take derived supports away,
but their pairs are those with the label of derived supports; all others stay. So what an addition
does to the other pairs of a parameter depends on the values and on how the parameter rounds and
bounds them, and not on what is stored.

## Main definitions

* `Parameter.Accepts`: a pair that an addition puts in;
* `Parameter.Gathers`: the pairs of a parameter but those of derived supports gain the given ones;
* `SupportMap.Alike`: the same values with the same sets of labels.

## Main results

* `SupportMap.storesLike_addAll_iff`: an addition is a union of pairs;
* `SupportMap.alike_of_storesLike_iff`: in order, values and labels are determined by the pairs;
* `Store.ends_add_gathers`, `Store.ends_addGenerative_gathers`: what additions do to the pairs of a
  parameter, whether they succeed or fail.
-/

namespace Discretization

variable {α : Type} [Scalar α]

namespace Scalar.Agrees

variable {x y z : α}

theorem refl (x : α) : Agrees x x := .inl rfl

variable [LawfulScalar α]

theorem symm (h : Agrees x y) : Agrees y x :=
  h.imp Eq.symm LawfulScalar.beq_symm

theorem trans (h : Agrees x y) (h' : Agrees y z) : Agrees x z := by
  obtain rfl | h := h
  · exact h'
  obtain rfl | h' := h'
  · exact .inr h
  · exact .inr (LawfulScalar.beq_trans h h')

omit [LawfulScalar α] in
/-- A defined number agrees with the equal ones only. -/
theorem beq (h : Agrees x y) (hx : Defined x) : (x == y) = true := by
  obtain rfl | h := h
  · exact hx
  · exact h

end Scalar.Agrees

namespace SupportMap

variable {m m' : SupportMap α} {x : α} {l label : Label} {values : List α}

/-! ## Unions -/

/-- After an addition, the stored pairs are those from before and those of the added values. -/
theorem storesLike_addAll_iff [LawfulScalar α] :
    (m.addAll values label).2.StoresLike x l ↔
      m.StoresLike x l ∨ l = label ∧ ∃ y ∈ values, Scalar.Agrees y x := by
  constructor
  · rintro ⟨z, hz, hzx⟩
    obtain hz | ⟨hl, y, hy, hzy⟩ := stores_of_addAll hz
    · exact .inl ⟨z, hz, hzx⟩
    · exact .inr ⟨hl, y, hy, hzy.symm.trans hzx⟩
  · rintro (⟨z, hz, hzx⟩ | ⟨rfl, y, hy, hyx⟩)
    · exact ⟨z, hz.addAll values label, hzx⟩
    · -- the added value is stored in a form that agrees with it
      obtain ⟨z, hz, hzy⟩ := exists_stores_addAll m l hy
      exact ⟨z, hz, hzy.trans hyx⟩

/-- Stripping labels leaves the pairs with another label, also where it ends early. -/
theorem storesLike_strip_of_not_covered {selectors : List Label}
    (hl : Label.coveredBy selectors l = false) :
    (m.strip selectors).1.StoresLike x l ↔ m.StoresLike x l := by
  refine ⟨fun hx => ?_, fun hx => hx.strip hl⟩
  obtain ⟨y, hy, hyx⟩ := hx
  exact ⟨y, stores_of_strip hy, hyx⟩

theorem storesLike_strip_iff {selectors : List Label} (hdone : (m.strip selectors).2 = none) :
    (m.strip selectors).1.StoresLike x l ↔
      m.StoresLike x l ∧ Label.coveredBy selectors l = false := by
  cases hl : Label.coveredBy selectors l with
  | true => simp [not_storesLike_strip_of_covered hdone hl]
  | false => simp [storesLike_strip_of_not_covered hl]

/-! ## Tables that store the same pairs -/

/-- A defined value is stored just if it is stored under some label. -/
theorem contains_iff_storesLike (h : ∀ s ∈ m.supports, s.Labelled) (hx : Scalar.Defined x) :
    m.contains x = true ↔ ∃ l, m.StoresLike x l := by
  unfold contains
  rw [List.any_eq_true]
  constructor
  · rintro ⟨s, hs, he⟩
    obtain ⟨l, hl⟩ := List.exists_mem_of_ne_nil _ (h s hs).nonempty
    exact ⟨l, s.value, ⟨s, hs, rfl, hl⟩, .inr he⟩
  · rintro ⟨l, y, ⟨s, hs, rfl, -⟩, hyx⟩
    refine ⟨s, hs, ?_⟩
    obtain rfl | he := hyx
    · exact hx
    · exact he

/-- The same values, up to their form, each with the same set of labels. -/
def Alike (m m' : SupportMap α) : Prop :=
  List.Forall₂ (fun s s' => (s.value == s'.value) = true ∧ ∀ l, l ∈ s.labels ↔ l ∈ s'.labels)
    m.supports m'.supports

section Order

variable {s s' : Support α} {rest rest' : List (Support α)}

theorem storesLike_cons :
    StoresLike ⟨s :: rest⟩ x l ↔
      l ∈ s.labels ∧ Scalar.Agrees s.value x ∨ StoresLike ⟨rest⟩ x l := by
  constructor
  · rintro ⟨y, ⟨t, ht, rfl, hl⟩, hyx⟩
    obtain rfl | ht := List.mem_cons.1 ht
    · exact .inl ⟨hl, hyx⟩
    · exact .inr ⟨t.value, ⟨t, ht, rfl, hl⟩, hyx⟩
  · rintro (⟨hl, hyx⟩ | ⟨y, ⟨t, ht, rfl, hl⟩, hyx⟩)
    · exact ⟨s.value, ⟨s, List.mem_cons_self, rfl, hl⟩, hyx⟩
    · exact ⟨t.value, ⟨t, List.mem_cons_of_mem s ht, rfl, hl⟩, hyx⟩

variable [LawfulScalar α]

/-- What is stored behind the first support is above it. -/
theorem lt_of_storesLike_rest (h : Increasing ((s :: rest).map (·.value)))
    (hx : StoresLike ⟨rest⟩ x l) : s.value < x := by
  obtain ⟨y, ⟨t, ht, rfl, -⟩, hyx⟩ := hx
  have hlt := (List.pairwise_cons.1 (List.pairwise_map.1 h.pairwise)).1 t ht
  exact LawfulScalar.lt_of_lt_of_beq hlt (hyx.beq (LawfulScalar.defined_of_gt hlt))

/-- The labels of the first value are those of the first support. -/
theorem storesLike_head_iff (h : Increasing ((s :: rest).map (·.value)))
    (hx : (s.value == x) = true) : StoresLike ⟨s :: rest⟩ x l ↔ l ∈ s.labels := by
  rw [storesLike_cons]
  constructor
  · rintro (⟨hl, -⟩ | hrest)
    · exact hl
    · exact absurd (lt_of_storesLike_rest h hrest) (LawfulScalar.not_lt_of_beq hx)
  · exact fun hl => .inl ⟨hl, .inr hx⟩

/-- What is stored behind the first support is all but what is stored there. -/
theorem storesLike_rest_iff (h : Increasing ((s :: rest).map (·.value))) :
    StoresLike ⟨rest⟩ x l ↔ StoresLike ⟨s :: rest⟩ x l ∧ (s.value == x) = false := by
  have hs : Scalar.Defined s.value := h.defined _ (by simp)
  rw [storesLike_cons]
  constructor
  · exact fun hrest => ⟨.inr hrest, Scalar.not_beq_of_lt (lt_of_storesLike_rest h hrest)⟩
  · rintro ⟨⟨-, hagrees⟩ | hrest, hne⟩
    · simp [hagrees.beq hs] at hne
    · exact hrest

/-- Two tables that store the same pairs begin with the same value. -/
theorem beq_of_storesLike_iff (h : Increasing ((s :: rest).map (·.value)))
    (h' : Increasing ((s' :: rest').map (·.value))) (hl : s.labels ≠ []) (hl' : s'.labels ≠ [])
    (hsame : ∀ x l, StoresLike ⟨s :: rest⟩ x l ↔ StoresLike ⟨s' :: rest'⟩ x l) :
    (s.value == s'.value) = true := by
  have hs : Scalar.Defined s.value := h.defined _ (by simp)
  have hs' : Scalar.Defined s'.value := h'.defined _ (by simp)
  -- each of the two first values is stored in the other table, at its first support or behind it
  obtain ⟨label, hlabel⟩ := List.exists_mem_of_ne_nil _ hl
  obtain ⟨label', hlabel'⟩ := List.exists_mem_of_ne_nil _ hl'
  have hfound := (hsame s.value label).1 ((storesLike_head_iff h hs).2 hlabel)
  have hfound' := (hsame s'.value label').2 ((storesLike_head_iff h' hs').2 hlabel')
  obtain ⟨-, hagrees⟩ | hbehind := storesLike_cons.1 hfound
  · exact LawfulScalar.beq_symm (hagrees.beq hs')
  obtain ⟨-, hagrees⟩ | hbehind' := storesLike_cons.1 hfound'
  · exact hagrees.beq hs
  -- not both can be behind
  · have hlt := lt_of_storesLike_rest h' hbehind
    have hgt := lt_of_storesLike_rest h hbehind'
    exact absurd (LawfulScalar.lt_trans hlt hgt) (Scalar.not_lt_self _)

/-- Increasing tables without empty sets of labels that store the same pairs are alike. -/
theorem alike_of_storesLike_iff (h : Increasing m.values) (h' : Increasing m'.values)
    (hl : ∀ s ∈ m.supports, s.labels ≠ []) (hl' : ∀ s ∈ m'.supports, s.labels ≠ [])
    (hsame : ∀ x l, m.StoresLike x l ↔ m'.StoresLike x l) : m.Alike m' := by
  obtain ⟨supports⟩ := m
  obtain ⟨supports'⟩ := m'
  unfold Alike
  -- support by support: with the first ones alike, the others store the same pairs again
  induction supports generalizing supports' with
  | nil =>
    cases supports' with
    | nil => exact .nil
    | cons s' rest' =>
      obtain ⟨label, hlabel⟩ := List.exists_mem_of_ne_nil _ (hl' s' List.mem_cons_self)
      obtain ⟨y, ⟨t, ht, -⟩, -⟩ :=
        (hsame s'.value label).2 (storesLike_cons.2 (.inl ⟨hlabel, .refl _⟩))
      simp at ht
  | cons s rest ih =>
    cases supports' with
    | nil =>
      obtain ⟨label, hlabel⟩ := List.exists_mem_of_ne_nil _ (hl s List.mem_cons_self)
      obtain ⟨y, ⟨t, ht, -⟩, -⟩ :=
        (hsame s.value label).1 (storesLike_cons.2 (.inl ⟨hlabel, .refl _⟩))
      simp at ht
    | cons s' rest' =>
      have hbeq := beq_of_storesLike_iff h h' (hl s List.mem_cons_self) (hl' s' List.mem_cons_self)
        hsame
      have hs : Scalar.Defined s.value := h.defined _ List.mem_cons_self
      refine .cons ⟨hbeq, fun l => ?_⟩ (ih (h.sublist (List.sublist_cons_self _ _))
        (fun t ht => hl t (List.mem_cons_of_mem s ht)) rest'
        (h'.sublist (List.sublist_cons_self _ _))
        (fun t ht => hl' t (List.mem_cons_of_mem s' ht)) fun x l => ?_)
      · rw [← storesLike_head_iff h hs, hsame, storesLike_head_iff h' (LawfulScalar.beq_symm hbeq)]
      · have hhead : (s.value == x) = (s'.value == x) := by
          rw [Bool.eq_iff_iff]
          exact ⟨LawfulScalar.beq_trans (LawfulScalar.beq_symm hbeq), LawfulScalar.beq_trans hbeq⟩
        rw [storesLike_rest_iff h, storesLike_rest_iff h', hsame, hhead]

end Order

end SupportMap

/-! ## Parameters that gather pairs -/

namespace Parameter

variable {q q' q'' : Parameter α} {values : List α} {label : Argument Label} {checked : Bool}
  {x : α} {l : Label} {puts puts' : α → Label → Prop}

/-- A pair that an addition puts in: the label can be stored, the values can be rounded and pass the
check, if there is one, and one of them agrees with the value of the pair. -/
def Accepts (q : Parameter α) (values : List α) (label : Argument Label) (checked : Bool) (x : α)
    (l : Label) : Prop :=
  label = .given l ∧ l.isSelector = false ∧ ∃ rounded, roundList q.digits values = .ok rounded ∧
    (checked = true → q.checkBounds rounded = .ok ()) ∧ ∃ y ∈ rounded, Scalar.Agrees y x

/-- The second parameter rounds, bounds and derives supports like the first, and apart from the
label of derived supports it stores the pairs of the first and the given ones. -/
structure Gathers (q q' : Parameter α) (puts : α → Label → Prop) : Prop where
  info : q'.info = q.info
  digits : q'.digits = q.digits
  domain : q'.domain = q.domain
  derivable : q'.Derivable
  stores : ∀ x l, q.Apart l → (q'.supports.StoresLike x l ↔ q.supports.StoresLike x l ∨ puts x l)

omit [Scalar α] in
theorem apart_congr (h : q'.info = q.info) : q'.Apart l ↔ q.Apart l := by
  unfold Apart
  rw [h]

/-- Values pass the check just if they lie between the bounds of the domain. -/
theorem checkBounds_eq_ok_iff : q.checkBounds values = .ok () ↔
    ∃ lower upper, q.domain.bounds = .ok (lower, upper) ∧
      ∀ x ∈ values, Scalar.between lower upper x = true := by
  refine ⟨Store.between_of_checkBounds, ?_⟩
  rintro ⟨lower, upper, hbounds, hbetween⟩
  have hinside : (values.filter fun x => !Scalar.between lower upper x).isEmpty = true := by
    simpa using hbetween
  rw [checkBounds, Except.bind_eq_ok]
  exact ⟨(lower, upper), hbounds, by simp [hinside]⟩

/-- What an addition puts in depends on how the parameter rounds and bounds values only. -/
theorem accepts_congr (hdigits : q'.digits = q.digits) (hdomain : q'.domain = q.domain) :
    q'.Accepts values label checked x l ↔ q.Accepts values label checked x l := by
  simp only [Accepts, hdigits, checkBounds_eq_ok_iff, hdomain]

theorem Accepts.eq_given (h : q.Accepts values label checked x l) : label = .given l := h.1

theorem accepts_given_iff {given : Label} {rounded : List α} (hstorable : given.isSelector = false)
    (hr : roundList q.digits values = .ok rounded)
    (hbounds : checked = true → q.checkBounds rounded = .ok ()) :
    q.Accepts values (.given given) checked x l ↔
      l = given ∧ ∃ y ∈ rounded, Scalar.Agrees y x := by
  constructor
  · rintro ⟨hgiven, -, rounded', hr', -, hx⟩
    obtain rfl : rounded = rounded' := Except.ok.inj (hr.symm.trans hr')
    exact ⟨(Argument.given.inj hgiven).symm, hx⟩
  · rintro ⟨rfl, hx⟩
    exact ⟨rfl, hstorable, rounded, hr, hbounds, hx⟩

/-- Taking derived supports away leaves the other pairs, also where it ends early. -/
theorem gathers_without {basis : List α} {derived : Label} (hinfo : q.info = .uniform basis derived)
    (hown : derived.isSelector = false) (internal : Bool) :
    q.Gathers { q.without [derived] internal with hasEquations := false } fun _ _ => False := by
  refine ⟨rfl, rfl, rfl, nofun, fun x l ha => ?_⟩
  rw [or_false]
  exact SupportMap.storesLike_strip_of_not_covered (ha.not_coveredBy hinfo hown)

theorem Gathers.refl (hd : q.Derivable) : q.Gathers q fun _ _ => False :=
  ⟨rfl, rfl, rfl, hd, by simp⟩

theorem Gathers.trans (h : q.Gathers q' puts) (h' : q'.Gathers q'' puts') :
    q.Gathers q'' fun x l => puts x l ∨ puts' x l where
  info := h'.info.trans h.info
  digits := h'.digits.trans h.digits
  domain := h'.domain.trans h.domain
  derivable := h'.derivable
  stores x l ha := by
    rw [h'.stores x l ((apart_congr h.info).2 ha), h.stores x l ha, or_assoc]

theorem Gathers.congr (h : q.Gathers q' puts)
    (hputs : ∀ x l, q.Apart l → (puts' x l ↔ puts x l)) : q.Gathers q' puts' where
  info := h.info
  digits := h.digits
  domain := h.domain
  derivable := h.derivable
  stores x l ha := by rw [h.stores x l ha, hputs x l ha]

end Parameter

namespace Store

open Operation

variable {w : Workspace α} {p : Ref} {q : Parameter α} {values : List α} {label : Argument Label}
  {checked : Bool}

omit [Scalar α] in
theorem ne_all_of_not_isSelector {l : Label} (h : l.isSelector = false) : l ≠ .all := by
  rintro rfl
  simp [Label.isSelector, Label.all, LabelKind.selects] at h

/-- Deleting a label strips it, together with that of derived supports in place. This fails only if
the latter is not known or the stripping ends early. -/
theorem ends_delete_strips (hq : w.model.parameter (.given p) = .ok q) {l : Label}
    (hown : l.isSelector = false) :
    Ends (delete p l) w
      (fun _ w' => ∃ derived q', q.info.label = .ok derived ∧
        (q.supports.strip (selectors q l derived)).2 = none ∧
        w'.model.parameter (.given p) = .ok q' ∧
        q'.supports = (q.supports.strip (selectors q l derived)).1 ∧ q'.info = q.info ∧
        q'.hasGenerative = false)
      fun _ => ∀ derived, q.info.label = .ok derived →
        (q.supports.strip (selectors q l derived)).2.isSome = true := by
  refine ends_delete (ne_all_of_not_isSelector hown) (fun e he => by simp [hq] at he)
    fun q₀ w₁ hq₀ hw₁ => ?_
  obtain rfl : q = q₀ := Except.ok.inj (hq.symm.trans hq₀)
  refine ⟨fun e he derived hd => by simp [he] at hd, fun derived hd supports failed hstrip => ?_⟩
  obtain ⟨rfl, rfl⟩ : (q.supports.strip (selectors q l derived)).1 = supports ∧
      (q.supports.strip (selectors q l derived)).2 = failed := by simp [hstrip]
  have hq₂ := Model.parameter_modifyParameter hw₁.parameter fun q₁ =>
    { q₁ with
      supports := (q.supports.strip (selectors q l derived)).1, hasGenerative := false }
  have hq₃ := Model.parameter_modifyParameter hq₂ fun q₁ =>
    { q₁ with
      hasInternal := q₁.hasInternal &&
        (q.supports.strip (selectors q l derived)).1.hasInternal }
  refine ⟨fun hfailed derived' hd' => ?_, fun hdone => ⟨derived, _, hd, hdone,
    (Model.parameter_markStaleIfUsed _).trans hq₃, rfl, rfl, rfl⟩⟩
  obtain rfl : derived = derived' := Except.ok.inj (hd.symm.trans hd')
  exact hfailed

/-- Whether it succeeds or fails, an addition puts in the pairs that the parameter accepts, and
apart from derived supports it leaves all that were there. -/
theorem ends_add_gathers [LawfulScalar α] (hq : w.model.parameter (.given p) = .ok q)
    (hd : q.Derivable) :
    Ends (add p values label checked) w
      (fun _ w' => ∃ q', w'.model.parameter (.given p) = .ok q' ∧
        q.Gathers q' (q.Accepts values label checked))
      fun w' => ∃ q', w'.model.parameter (.given p) = .ok q' ∧
        q.Gathers q' (q.Accepts values label checked) := by
  have hgrown : ∀ {l rounded} equations, q.Admitted values label checked l rounded →
      q.Gathers { q.grown rounded l with hasEquations := equations }
        (q.Accepts values label checked) := by
    rintro l rounded equations ⟨rfl, hstorable, hr, hbounds⟩
    refine ⟨rfl, rfl, rfl, hd, fun x l' _ => ?_⟩
    rw [Parameter.accepts_given_iff hstorable hr hbounds]
    exact SupportMap.storesLike_addAll_iff
  -- new values take derived supports away, which concerns no other pair
  have hdisplaced : ∀ {l rounded basis derived} internal,
      q.Admitted values label checked l rounded → q.info = .uniform basis derived →
        derived.isSelector = false → q.Gathers
          { (q.grown rounded l).without [derived] internal with hasEquations := false }
          (q.Accepts values label checked) := by
    intro l rounded basis derived internal hadmitted hinfo hown
    have hwithout := Parameter.gathers_without
      (q := { q.grown rounded l with hasEquations := false }) hinfo hown internal
    exact ((hgrown false hadmitted).trans hwithout).congr fun x l' _ => by simp
  refine (ends_add_takes hq hd).mono ?_ ?_
  · rintro anyNew w' ⟨l, rounded, q', hadmitted, htakes, hq'⟩
    refine ⟨q', hq', ?_⟩
    cases htakes with
    | known _ => exact hgrown q.hasEquations hadmitted
    | beside _ _ => exact hgrown false hadmitted
    | displacing _ _ hinfo hown _ _ => exact hdisplaced _ hadmitted hinfo hown
  · rintro w' (⟨rfl, hnone⟩ | ⟨l, rounded, q', hadmitted, ⟨hinfo, hown, -, -⟩, hq'⟩)
    · -- where a check fails, nothing is accepted
      refine ⟨q, hq, (Parameter.Gathers.refl hd).congr fun x l _ => ?_⟩
      rw [iff_false]
      rintro ⟨hgiven, hstorable, rounded, hr, hbounds, -⟩
      exact hnone l rounded ⟨hgiven, hstorable, hr, hbounds⟩
    · exact ⟨_, hq', hdisplaced _ hadmitted hinfo hown⟩

/-- Putting derived supports in place concerns no other pair. -/
theorem ends_addGenerative_gathers [LawfulScalar α] (hq : w.model.parameter (.given p) = .ok q)
    (hd : q.Derivable) :
    Ends (addGenerative p) w
      (fun _ w' => ∃ q', w'.model.parameter (.given p) = .ok q' ∧ q.Gathers q' fun _ _ => False)
      fun w' => ∃ q', w'.model.parameter (.given p) = .ok q' ∧ q.Gathers q' fun _ _ => False := by
  have hsame := Parameter.Gathers.refl hd
  refine ends_addGenerative_of ⟨q, hq, hsame⟩ (fun _ _ _ => ⟨q, hq, hsame⟩)
    fun q₀ basis label derived hq₀ hmissing hinfo _ => ?_
  obtain rfl : q = q₀ := Except.ok.inj (hq.symm.trans hq₀)
  refine ((ends_add_of_missing hq hmissing derived (.given label) false).and
    (ends_add_gathers hq hd)).mono ?_ ?_
  · rintro _ w₁ ⟨⟨l, rounded, equations, hl, hstorable, -⟩, q₁, hq₁, h⟩
    obtain rfl := Argument.given.inj hl
    refine ⟨_, Model.parameter_modifyParameter hq₁ _, h.info, h.digits, h.domain,
      fun _ => ⟨basis, label, h.info.trans hinfo, hstorable⟩, fun x l ha => ?_⟩
    -- what was put in has the label of derived supports
    rw [h.stores x l ha]
    exact or_congr_right (iff_false_intro fun haccepts =>
      ha basis label hinfo (Argument.given.inj haccepts.eq_given))
  · rintro w₁ ⟨⟨rfl, -⟩, -⟩
    exact ⟨q, hq, hsame⟩

end Store

end Discretization
