import Discretization.Proofs.Elements
import Discretization.Proofs.Policies
import Discretization.Proofs.Representations
import Discretization.Proofs.Retention

/-!
# Supports Lie in Their Domain

Supports that are given are checked against the bounds of the domain. Derived supports are not: that
they lie in the domain as well rests on the basis, whose offsets lie in `[0, 1]`, and on the
interpolation, which maps these into the element between two supports. In exact arithmetic that is
so for every basis that is accepted. Doubles round the width of an element, which can be too large
for a double or swallow the smaller of its ends, and then a derived support lies outside.

## Main definitions

* `Domain.Holds`: a value lies between the bounds of a domain;
* `GenerativeInfo.Interpolates`: derived supports lie in their elements;
* `Request.Bounded`, `Request.Accepted`: requests that check what they store.

## Main results

* `holds_of_requested`: supports stay in the domain as long as derived ones lie in their elements;
* `holds_of_requested_exact`: in exact arithmetic they stay there for all accepted bases.
-/

namespace Discretization

variable {α : Type} [Scalar α]

namespace Scalar

variable {x y z : α}

theorem between_iff : between x z y = true ↔ x ≤ y ∧ y ≤ z := by
  simp [between]

theorem le_trans [LawfulScalar α] (h : x ≤ y) (h' : y ≤ z) : x ≤ z := by
  rw [LawfulScalar.le_iff] at *
  rcases h with h | h <;> rcases h' with h' | h'
  · exact .inl (LawfulScalar.lt_trans h h')
  · exact .inl (LawfulScalar.lt_of_lt_of_beq h h')
  · exact .inl (LawfulScalar.lt_of_beq_of_lt h h')
  · exact .inr (LawfulScalar.beq_trans h h')

end Scalar

/-! ## Values of a domain -/

/-- The value lies between the bounds of the domain, both included. -/
def Domain.Holds (domain : Domain α) (x : α) : Prop :=
  ∃ lower upper, domain.bounds = .ok (lower, upper) ∧ lower ≤ x ∧ x ≤ upper

namespace Domain.Holds

variable {domain : Domain α} {x y z : α}

/-- What the bounds were checked for is in the domain. -/
theorem of_checkBounds {q : Parameter α} {values : List α} (h : q.checkBounds values = .ok ()) :
    ∀ x ∈ values, q.domain.Holds x := by
  obtain ⟨lower, upper, hbounds, hbetween⟩ := Store.between_of_checkBounds h
  exact fun x hx => ⟨lower, upper, hbounds, Scalar.between_iff.1 (hbetween x hx)⟩

variable [LawfulScalar α]

theorem defined (h : domain.Holds x) : Scalar.Defined x := by
  obtain ⟨lower, upper, -, hx⟩ := h
  exact Scalar.defined_of_between (Scalar.between_iff.2 hx)

/-- A domain has no gaps. -/
theorem of_between (hx : domain.Holds x) (hz : domain.Holds z)
    (h : Scalar.between x z y = true) : domain.Holds y := by
  obtain ⟨lower, upper, hbounds, hlower, -⟩ := hx
  obtain ⟨lower', upper', hbounds', -, hupper⟩ := hz
  rw [hbounds] at hbounds'
  cases hbounds'
  obtain ⟨hxy, hyz⟩ := Scalar.between_iff.1 h
  exact ⟨lower, upper, hbounds, Scalar.le_trans hlower hxy, Scalar.le_trans hyz hupper⟩

end Domain.Holds

/-! ## Derived supports -/

namespace GenerativeInfo

/-- Between values of the domain with the given number of digits, derived supports lie in their
elements, and rounding does not take them out. -/
def Interpolates (info : GenerativeInfo α) (domain : Domain α) (digits : Int) : Prop :=
  ∀ basis label, info = .uniform basis label → ∀ lower upper, lower < upper →
    domain.Holds lower → domain.Holds upper →
    roundTo digits lower = .ok lower → roundTo digits upper = .ok upper →
    ∀ offset ∈ basis, ∀ x, roundTo digits (point lower upper offset) = .ok x →
      Scalar.between lower upper x = true

end GenerativeInfo

/-! ## Exact arithmetic -/

namespace Lobatto

theorem unit_pos : 0 < unit := by decide

/-- Halving an interval does not leave it. -/
theorem bisect_mem (f : Int → Int) (sign : Int) {a b : Int} (steps : Nat) {lower upper : Int}
    (hlower : a ≤ lower ∧ lower ≤ b) (hupper : a ≤ upper ∧ upper ≤ b) :
    a ≤ bisect f sign steps lower upper ∧ bisect f sign steps lower upper ≤ b := by
  induction steps generalizing lower upper with
  | zero => exact hlower
  | succ steps ih =>
    have hmiddle : a ≤ (lower + upper) / 2 ∧ (lower + upper) / 2 ≤ b := by omega
    simp only [bisect]
    split
    · exact hmiddle
    · split
      · exact ih hmiddle hupper
      · exact ih hlower hmiddle

/-- All roots lie between the ends. -/
theorem roots_mem {degree : Nat} {root : Int} (h : root ∈ roots degree) :
    -unit ≤ root ∧ root ≤ unit := by
  -- the roots of one degree lie between those of the degree before and the two ends
  induction degree generalizing root with
  | zero => cases h
  | succ degree ih =>
    obtain ⟨⟨lower, upper⟩, hpair, rfl⟩ := List.mem_map.1 h
    -- bisection does not leave the interval that it starts with
    have hends : ∀ x ∈ -unit :: roots degree ++ [unit], -unit ≤ x ∧ x ≤ unit := by
      have hunit := unit_pos
      intro x hx
      rw [List.cons_append, List.mem_cons, List.mem_append, List.mem_singleton] at hx
      rcases hx with rfl | hx | rfl
      · omega
      · exact ih hx
      · omega
    obtain ⟨hlower, hupper⟩ := List.of_mem_zip hpair
    exact bisect_mem _ _ _ (hends _ hlower) (hends _ (List.mem_of_mem_tail hupper))

end Lobatto

namespace GenerativeInfo

/-- The way in which supports are derived has a basis that was accepted, if it has one. -/
def Accepted : GenerativeInfo α → Prop
  | uniform basis label => ∃ positions lower upper,
      uniform? positions label lower upper = .ok (uniform basis label)
  | _ => True

/-- Without rounding, an offset in `[0, 1]` gives a point of the element. -/
theorem interpolates_of_unit {info : GenerativeInfo ℚ}
    (h : ∀ basis label, info = .uniform basis label → ∀ offset ∈ basis, 0 ≤ offset ∧ offset ≤ 1)
    (domain : Domain ℚ) (digits : Int) : info.Interpolates domain digits := by
  intro basis label hinfo lower upper hlt _ _ _ _ offset hoffset x hx
  have hexact : x = point lower upper offset := by
    unfold roundTo at hx
    split at hx
    · cases hx
      rfl
    · split at hx <;> cases hx
      rfl
  rw [hexact, Scalar.between_iff]
  exact point_mem hlt.le (h basis label hinfo offset hoffset)

theorem interpolates_of_accepted {info : GenerativeInfo ℚ} (h : info.Accepted)
    (domain : Domain ℚ) (digits : Int) : info.Interpolates domain digits := by
  refine interpolates_of_unit ?_ domain digits
  rintro basis label rfl offset hoffset
  obtain ⟨positions, lower, upper, h⟩ := h
  -- what is left after the four checks is a basis of offsets of the positions
  unfold uniform? at h
  split at h
  · cases h
  split at h
  · cases h
  split at h
  · cases h
  split at h
  · cases h
  rename_i _ hlt hinside _
  cases h
  obtain ⟨x, hx, rfl⟩ := List.mem_map.1 hoffset
  -- exact numbers are all defined, so the positions were compared
  have hdefined : positions.any Scalar.isUndefined = false := by simp [Scalar.isUndefined]
  have hrange : ∀ x ∈ positions, lower ≤ x ∧ x ≤ upper := by
    simpa [outside, hdefined] using hinside
  exact offset_mem (not_not.1 hlt) (hrange x hx)

end GenerativeInfo

/-- Nodes lie between the ends of an element. -/
theorem DerivativeMethod.interpolates (method : DerivativeMethod) (domain : Domain ℚ)
    (digits : Int) : (method.generativeInfo : GenerativeInfo ℚ).Interpolates domain digits := by
  refine GenerativeInfo.interpolates_of_unit ?_ domain digits
  intro basis label hinfo offset hoffset
  cases method with
  | orthogonalCollocation nodes =>
    rw [generativeInfo] at hinfo
    split at hinfo
    · cases hinfo
    cases hinfo
    obtain ⟨x, hx, rfl⟩ := List.mem_map.1 hoffset
    obtain ⟨root, hroot, rfl⟩ := List.mem_map.1 hx
    obtain ⟨hlower, hupper⟩ := Lobatto.roots_mem hroot
    -- the nodes are roots in units of the fixed-point grid, so `[-1, 1]` is from `-unit` to `unit`
    have hcast : ((Lobatto.unit.toNat : ℕ) : ℚ) = Lobatto.unit :=
      mod_cast Int.toNat_of_nonneg Lobatto.unit_pos.le
    have hunit : (0 : ℚ) < (Lobatto.unit.toNat : ℕ) := by
      rw [hcast]
      exact mod_cast Lobatto.unit_pos
    refine GenerativeInfo.offset_mem (by norm_num)
      ⟨(le_div_iff₀ hunit).2 ?_, (div_le_iff₀ hunit).2 ?_⟩
    · rw [hcast, neg_one_mul]
      exact mod_cast hlower
    · rw [hcast, one_mul]
      exact mod_cast hupper
  | _ => cases hinfo

/-! ## Parameters -/

omit [Scalar α] in
/-- Neighbours in a list that is ordered are in that order. -/
theorem rel_of_mem_zip_tail {R : α → α → Prop} {xs : List α} (h : xs.Pairwise R) :
    ∀ pair ∈ xs.zip xs.tail, pair.1 ∈ xs ∧ pair.2 ∈ xs ∧ R pair.1 pair.2 := by
  induction h with
  | nil => nofun
  | @cons x rest hx _ ih =>
    cases rest with
    | nil => nofun
    | cons y rest =>
      intro pair hpair
      rcases List.mem_cons.1 hpair with rfl | hpair
      · exact ⟨List.mem_cons_self, by simp, hx y List.mem_cons_self⟩
      · obtain ⟨h₁, h₂, hR⟩ := ih pair hpair
        exact ⟨List.mem_cons_of_mem x h₁, List.mem_cons_of_mem x h₂, hR⟩

/-- Only values of the domain are stored, and supports are derived only in ways that interpolate. -/
def Policy.inside : Policy α where
  values domain values _ := ∀ x ∈ values, domain.Holds x
  infos domain digits info := info.Interpolates domain digits

theorem Policy.admits_inside (values : List α) (label : Label) :
    Policy.inside.Admits values label :=
  fun _ _ _ hbounds => .of_checkBounds hbounds

variable [LawfulScalar α]

namespace Parameter

variable {q q' : Parameter α}

/-- The supports of a parameter lie in its domain, and so do those that are derived from them. -/
structure Contained (q : Parameter α) : Prop where
  derivable : q.Derivable
  tidy : q.Tidy
  interpolates : q.info.Interpolates q.domain q.digits
  holds : ∀ x ∈ q.supports.values, q.domain.Holds x

/-- Supports that are derived from supports in the domain lie between these. -/
theorem Contained.holds_derived (h : q.Contained) {basis derived rounded : List α} {label : Label}
    {owner : String} (hinfo : q.info = .uniform basis label)
    (hderives : q.info.makeSupports (q.supports.baseValues label) owner = .ok derived)
    (hr : roundList q.digits derived = .ok rounded) : ∀ x ∈ rounded, q.domain.Holds x := by
  have hbase : (q.supports.baseValues label).Sublist q.supports.values :=
    List.filter_sublist.map _
  have hincreasing : Increasing q.supports.values :=
    h.tidy.ordered fun x hx => (h.holds x hx).defined
  intro x hx
  obtain ⟨y, hy, hyx⟩ := exists_left_of_mem (roundList_eq_ok.1 hr).2 hx
  -- the value comes from an offset of the basis and two neighbours among the other supports
  have hpoint : y ∈ GenerativeInfo.points basis (q.supports.baseValues label) := by
    rw [hinfo, GenerativeInfo.makeSupports] at hderives
    split at hderives
    · cases hderives
    · cases hderives
      exact hy
  obtain ⟨⟨lower, upper⟩, hpair, hy⟩ := List.mem_flatMap.1 hpoint
  obtain ⟨offset, hoffset, rfl⟩ := List.mem_map.1 hy
  obtain ⟨hlower, hupper, hlt⟩ :=
    rel_of_mem_zip_tail (hincreasing.sublist hbase).pairwise _ hpair
  have hlower := hbase.subset hlower
  have hupper := hbase.subset hupper
  refine (h.holds lower hlower).of_between (h.holds upper hupper) ?_
  exact h.interpolates basis label hinfo lower upper hlt (h.holds lower hlower)
    (h.holds upper hupper) (h.tidy.rounded lower hlower) (h.tidy.rounded upper hupper) offset
      hoffset x hyx

omit [LawfulScalar α] in
theorem Contained.of_new (h : q.New) (hinfo : q.info.Interpolates q.domain q.digits) :
    q.Contained where
  derivable := .of_new h
  tidy := .of_new h
  interpolates := hinfo
  holds x hx := by
    rw [h.supports] at hx
    cases hx

/-- Events put only values of the domain into a parameter. -/
theorem Contained.event (h : q.Contained) (hs : q.Event .inside q') : q'.Contained := by
  -- an event stores values of the domain beside those that are kept, or takes supports away
  have added : ∀ {m : SupportMap α} {rounded : List α} {label : Label},
      (∀ x ∈ m.values, q.domain.Holds x) → (∀ x ∈ rounded, q.domain.Holds x) →
        ∀ x ∈ (m.addAll rounded label).2.values, q.domain.Holds x := fun hm hr x hx =>
    (SupportMap.mem_values_addAll hx).elim (hm x) (hr x)
  have stripped : ∀ {m : SupportMap α} {selectors : List Label},
      (∀ x ∈ m.values, q.domain.Holds x) →
        ∀ x ∈ (m.strip selectors).1.values, q.domain.Holds x := fun hm x hx =>
    hm x (SupportMap.values_strip_subset _ hx)
  refine ⟨hs.derivable h.derivable, h.tidy.steps (hs.steps h.derivable),
    hs.infos h.derivable h.interpolates, ?_⟩
  cases hs with
  | redefine method info missing allowed => exact h.holds
  | strip noted => exact stripped h.holds
  | clear => exact nofun
  | replace rounds storable allowed => exact added nofun allowed
  | grow hgrowth =>
    cases hgrowth with
    | note equations => exact h.holds
    | add rounds storable allowed harmless => exact added h.holds allowed
    | withdraw info own noted => exact stripped h.holds
    | displace rounds storable allowed info own noted => exact stripped (added h.holds allowed)
    | derive missing info derives rounds storable =>
      exact added h.holds (h.holds_derived info derives rounds)
    | place rounds storable allowed none => exact added nofun allowed
    | underivable hnot => exact absurd h.derivable hnot

end Parameter

/-! ## Requests -/

/-- The request checks the values that it stores, and asks for derived supports only in ways that
interpolate. -/
def Request.Bounded (m : Model α) : Request α → Prop
  | addParameter domain _ _ _ _ method =>
    ∀ digits, method.generativeInfo.Interpolates domain digits
  | addSupports _ _ _ checked => checked = true
  | setGenerativeInfo p info => ∀ info' q, info = .given info' → m.parameter (.given p) = .ok q →
      info'.Interpolates q.domain q.digits
  | setDerivativeMethod p method => ∀ method' q, method = .given method' →
      m.parameter (.given p) = .ok q → method'.generativeInfo.Interpolates q.domain q.digits
  | _ => True

omit [LawfulScalar α] in
theorem Request.Bounded.obeys {m : Model α} {request : Request α} (h : request.Bounded m) :
    request.Obeys .inside m := by
  cases request with
  | addParameter => exact h
  | addMeasure function data shaped name => exact fun row _ => Policy.admits_inside row _
  | setSupports p values label force => exact fun l _ => Policy.admits_inside values l
  | addSupports p values label checked =>
    exact fun q l rounded _ _ hbounds => .of_checkBounds (hbounds h)
  | setGenerativeInfo => exact h
  | setDerivativeMethod => exact h
  | _ => trivial

/-- The request checks the values that it stores, and its domain and basis are accepted ones. -/
def Request.Accepted : Request α → Prop
  | addParameter (.scalar (.interval lower upper)) _ _ _ _ _ => lower ≤ upper
  | addSupports _ _ _ checked => checked = true
  | setGenerativeInfo _ (.given info) => info.Accepted
  | _ => True

/-- In exact arithmetic every accepted basis interpolates. -/
theorem Request.Accepted.bounded {request : Request ℚ} (h : request.Accepted) (m : Model ℚ) :
    request.Bounded m := by
  cases request with
  | addParameter domain name supports count digits method =>
    exact fun digits => method.interpolates domain digits
  | addSupports => exact h
  | setGenerativeInfo p info =>
    rintro info' q rfl _
    exact GenerativeInfo.interpolates_of_accepted h q.domain q.digits
  | setDerivativeMethod p method =>
    exact fun method' q _ _ => method'.interpolates q.domain q.digits
  | _ => trivial

omit [LawfulScalar α] in
/-- What is generated is checked before it is stored. -/
theorem Environment.generates_inside (e : Environment α) : e.Generates .inside :=
  fun _ _ _ _ _ _ => .of_forall (fun _ _ _ _ hbounds => .of_checkBounds hbounds) fun _ => trivial

theorem Parameter.contained_of_requested {m : Model α}
    (h : RequestedBy (fun m _ request => request.Bounded m) m) :
    ∀ p q, m.parameter (.given p) = .ok q → q.Contained :=
  h.event_induction (fun values label _ => Policy.admits_inside values label)
    (fun _ e _ hbounded => ⟨e.generates_inside, hbounded.obeys⟩)
    (fun _ hnew hinfo => .of_new hnew hinfo) fun _ _ hq hs => hq.event hs

/-- Supports are defined and never leave the domain, as long as values are checked before they are
added and derived supports lie in the elements that they are derived for. -/
theorem holds_of_requested {m : Model α}
    (h : RequestedBy (fun m _ request => request.Bounded m) m) {p : Ref} {q : Parameter α}
    (hq : m.parameter (.given p) = .ok q) :
    ∀ x ∈ q.supports.values, Scalar.Defined x ∧ q.domain.Holds x := fun x hx =>
  have hx := (Parameter.contained_of_requested h p q hq).holds x hx
  ⟨hx.defined, hx⟩

/-- Rationals with derived supports in place, and doubles without. -/
theorem holds_of_requested_derived :
    let p : Ref := ⟨0, .parameter, 1⟩
    let m : Model ℚ := Request.replay { id := 0 }
      [.addParameter (.scalar (.interval (-10) 10)) "t" (some [-10, -1 / 10]) 0 (some 6)
        (.orthogonalCollocation 3),
      .addGenerativeSupports p,
      .addSupports p [10] (.given .userDefined) true,
      .setGenerativeInfo p (.given (.uniform [0, 1 / 2] .collocation)),
      .addGenerativeSupports p]
    let m' : Model Float := Request.replay { id := 0 }
      [.addParameter (.scalar (.interval 0 1)) "t" (some [0, 1]) 0 (some 6)
        (.finiteDifference .central),
      .addSupports p [0.3] (.given .userDefined) true]
    RequestedBy (fun m _ request => request.Bounded m) m ∧
      RequestedBy (fun m _ request => request.Bounded m) m' ∧
      (∃ q, m.parameter (.given p) = .ok q ∧ q.hasGenerative = true ∧
        q.supports.values = [-10, -101 / 20, -1 / 10, 99 / 20, 10] ∧
        ∀ x ∈ q.supports.values, Scalar.Defined x ∧ q.domain.Holds x) ∧
      ∃ q, m'.parameter (.given p) = .ok q ∧ q.supports.values = [0, 0.3, 1] ∧
        ∀ x ∈ q.supports.values, Scalar.Defined x ∧ q.domain.Holds x := by
  intro p m m'
  -- only the bounds of the interval and the derivation of supports ask for anything
  have haccepted : RequestedBy (fun _ _ request => request.Accepted) m := by
    refine .replay (.start 0 "model") ?_
    simp only [List.forall_mem_cons, List.not_mem_nil, false_implies, implies_true, and_true]
    have hbounds : (-10 : ℚ) ≤ 10 := by norm_num
    have hbasis : (GenerativeInfo.uniform [0, 1 / 2] .collocation : GenerativeInfo ℚ).Accepted := by
      refine ⟨[-1, 0], -1, 1, ?_⟩
      norm_num [GenerativeInfo.uniform?, GenerativeInfo.outside, Scalar.isUndefined,
        GenerativeInfo.offset, Label.isSelector, Label.collocation]
      rfl
    exact ⟨fun _ => hbounds, fun _ => trivial, fun _ => rfl, fun _ => hbasis, fun _ => trivial⟩
  have hr : RequestedBy (fun m _ request => request.Bounded m) m :=
    haccepted.mono fun m _ _ ha => ha.bounded m
  have hr' : RequestedBy (fun m _ request => request.Bounded m) m' := by
    refine .replay (.start 0 "model") ?_
    simp only [List.forall_mem_cons, List.not_mem_nil, false_implies, implies_true, and_true]
    exact ⟨fun _ _ _ _ hinfo => (by cases hinfo), fun _ => rfl⟩
  obtain ⟨q, hq, hset, hvalues⟩ := Except.exists_of_decide (x := m.parameter (.given p))
    (fun q => q.hasGenerative = true ∧
      q.supports.values = [-10, -101 / 20, -1 / 10, 99 / 20, 10]) (by decide +kernel)
  obtain ⟨q', hq', hvalues'⟩ := Except.exists_of_decide (x := m'.parameter (.given p))
    (fun q => q.supports.values = [0, 0.3, 1]) (by decide +kernel)
  exact ⟨hr, hr', ⟨q, hq, hset, hvalues, holds_of_requested hr hq⟩,
    q', hq', hvalues', holds_of_requested hr' hq'⟩

/-- In exact arithmetic, supports never leave the domain. -/
theorem holds_of_requested_exact {m : Model ℚ}
    (h : RequestedBy (fun _ _ request => request.Accepted) m) {p : Ref} {q : Parameter ℚ}
    (hq : m.parameter (.given p) = .ok q) : ∀ x ∈ q.supports.values, q.domain.Holds x :=
  (Parameter.contained_of_requested (h.mono fun m _ _ ha => ha.bounded m) p q hq).holds

/-- The width of an element can be too large for a double. Its middle then counts as infinite. -/
theorem not_holds_of_requested :
    ¬ ∀ (m : Model Float) (p : Ref) (q : Parameter Float),
      RequestedBy (fun _ _ request => request.Accepted) m → m.parameter (.given p) = .ok q →
        ∀ x ∈ q.supports.values, Scalar.Defined x ∧ q.domain.Holds x := by
  intro hall
  let p : Ref := ⟨0, .parameter, 1⟩
  let requests : List (Request Float) :=
    [.addParameter (.scalar (.interval (-1.5e308) 1.5e308)) "t" (some [-1.5e308, 1.5e308]) 0
      (some 12) (.orthogonalCollocation 3),
    .addGenerativeSupports p]
  let m : Model Float := Request.replay { id := 0 } requests
  have hr : RequestedBy (fun _ _ request => request.Accepted) m := by
    refine .replay (.start 0 "model") ?_
    simp only [requests, List.forall_mem_cons, List.not_mem_nil, false_implies, implies_true,
      and_true]
    have hbounds : (-1.5e308 : Float) ≤ 1.5e308 := by decide +kernel
    exact ⟨fun _ => hbounds, fun _ => trivial⟩
  obtain ⟨q, hq, x, hx, hout⟩ := Except.exists_of_decide (x := m.parameter (.given p))
    (fun q => ∃ x ∈ q.supports.values,
      (q.domain.bounds.toOption.any fun bounds => Scalar.between bounds.1 bounds.2 x) = false)
    (by decide +kernel)
  obtain ⟨-, lower, upper, hbounds, hin⟩ := hall m p q hr hq x hx
  rw [hbounds] at hout
  exact Bool.noConfusion (hout.symm.trans (Scalar.between_iff.2 hin))

end Discretization
