import Discretization.Proofs.Atomicity
import Discretization.Proofs.Pairs
import Discretization.Proofs.Representations

/-!
# Additions in Any Order

Additions to one parameter can be made in any order. The first of them that brings a new value takes
derived supports away, so how the others find the parameter depends on where they come. A value that
coincides with a derived support is no news before and is news after. But all that is left in the
end depends on which additions there are, and not on their order: the pairs that each of them puts
in, the pairs from before, and whether any value was not stored in the beginning. Until the first
new value comes, the stored values are the ones from the beginning.

## Main definitions

* `Addition`: a call that adds supports to a parameter;
* `Parameter.Renews`: some added value is not stored yet;
* `Parameter.Collects`: what additions make of a parameter.

## Main results

* `Store.ends_add_collects`: what one addition makes of a parameter;
* `Parameter.Collects.append`: additions one after the other;
* `alike_of_perm`: additions in another order leave the same supports and flags.
-/

namespace Discretization

open Operation

variable {α : Type} [Scalar α]

/-- A call that adds values to a parameter under a label, with or without a check of the bounds. -/
structure Addition (α : Type) where
  values : List α
  label : Label
  checked : Bool

/-- Additions to a parameter, one after the other. -/
def Store.addEach (p : Ref) (additions : List (Addition α)) : Operation α Unit := do
  for a in additions do
    let _ ← add p a.values (.given a.label) a.checked

variable {q q' q'' : Parameter α} {a : Addition α} {additions additions' : List (Addition α)}
  {x : α} {l : Label}

/-- A parameter takes the addition: its defined values can be rounded and pass the check, if there
is one, and its label can be stored and is not that of derived supports. -/
structure Addition.Valid (q : Parameter α) (a : Addition α) : Prop where
  storable : a.label.isSelector = false
  apart : q.Apart a.label
  defined : ∀ x ∈ a.values, Scalar.Defined x
  accepted : ∃ rounded, roundList q.digits a.values = .ok rounded ∧
    (a.checked = true → q.checkBounds rounded = .ok ())

theorem Addition.Valid.congr (h : a.Valid q) (hinfo : q'.info = q.info)
    (hdigits : q'.digits = q.digits) (hdomain : q'.domain = q.domain) : a.Valid q' where
  storable := h.storable
  apart := (Parameter.apart_congr hinfo).2 h.apart
  defined := h.defined
  accepted := by
    simpa only [hdigits, Parameter.checkBounds_eq_ok_iff, hdomain] using h.accepted

namespace Parameter

/-! ## What additions make of a parameter -/

/-- The pairs that additions put in, if the parameter takes them. -/
def Puts (q : Parameter α) (additions : List (Addition α)) (x : α) (l : Label) : Prop :=
  ∃ a ∈ additions, a.label = l ∧ ∃ rounded, roundList q.digits a.values = .ok rounded ∧
    ∃ y ∈ rounded, Scalar.Agrees y x

/-- Some added value is not stored yet. -/
def Renews (q : Parameter α) (additions : List (Addition α)) : Prop :=
  ∃ a ∈ additions, ∃ rounded, roundList q.digits a.values = .ok rounded ∧
    ∃ y ∈ rounded, q.supports.contains y = false

/-- The second parameter is what additions make of the first: the pairs from before and those of the
additions. If any value was new, derived supports in place are gone, and so are both flags. -/
structure Collects (q : Parameter α) (additions : List (Addition α)) (q' : Parameter α) : Prop where
  info : q'.info = q.info
  digits : q'.digits = q.digits
  domain : q'.domain = q.domain
  firm : q'.Firm
  labelled : ∀ s ∈ q'.supports.supports, s.Labelled
  stores : ∀ x l, q'.supports.StoresLike x l ↔
    q.supports.StoresLike x l ∧ ¬ (q.Renews additions ∧ q.Undoes l) ∨ q.Puts additions x l
  generative : q'.hasGenerative = true ↔ q.hasGenerative = true ∧ ¬ q.Renews additions
  equations : q'.hasEquations = true ↔ q.hasEquations = true ∧ ¬ q.Renews additions

theorem puts_append : q.Puts (additions ++ additions') x l ↔
    q.Puts additions x l ∨ q.Puts additions' x l := by
  simp only [Puts, List.mem_append, or_and_right, exists_or]

theorem renews_append : q.Renews (additions ++ additions') ↔
    q.Renews additions ∨ q.Renews additions' := by
  simp only [Renews, List.mem_append, or_and_right, exists_or]

/-- What additions make of a parameter does not depend on their order. -/
theorem Collects.perm (h : q.Collects additions q') (hperm : additions.Perm additions') :
    q.Collects additions' q' := by
  have hputs : ∀ x l, q.Puts additions' x l ↔ q.Puts additions x l := by
    simp only [Puts, hperm.mem_iff, implies_true]
  have hrenews : q.Renews additions' ↔ q.Renews additions := by
    simp only [Renews, hperm.mem_iff]
  exact { h with
    stores := by simpa only [hputs, hrenews] using h.stores
    generative := by rw [hrenews, h.generative]
    equations := by rw [hrenews, h.equations] }

/-- Without additions, nothing changes. -/
theorem Collects.refl (hfirm : q.Firm) (hlabelled : ∀ s ∈ q.supports.supports, s.Labelled) :
    q.Collects [] q where
  info := rfl
  digits := rfl
  domain := rfl
  firm := hfirm
  labelled := hlabelled
  stores x l := by simp [Renews, Puts]
  generative := by simp [Renews]
  equations := by simp [Renews]

variable [LawfulScalar α]

/-- As long as no value was new, the same values are stored. -/
theorem Collects.contains_iff (h : q.Collects additions q')
    (hlabelled : ∀ s ∈ q.supports.supports, s.Labelled) (hold : ¬ q.Renews additions)
    (hx : Scalar.Defined x) :
    q'.supports.contains x = true ↔ q.supports.contains x = true := by
  rw [SupportMap.contains_iff_storesLike h.labelled hx,
    SupportMap.contains_iff_storesLike hlabelled hx]
  constructor
  · rintro ⟨l, hl⟩
    obtain ⟨hl, -⟩ | ⟨a, ha, -, rounded, hr, y, hy, hyx⟩ := (h.stores x l).1 hl
    · exact ⟨l, hl⟩
    · -- an added value that is no news was stored under some label
      have hstored : q.supports.contains y = true := by
        by_contra hmissing
        exact hold ⟨a, ha, rounded, hr, y, hy, by simpa using hmissing⟩
      obtain ⟨s, hs, he⟩ := List.any_eq_true.1 hstored
      obtain ⟨l', hl'⟩ := List.exists_mem_of_ne_nil _ (hlabelled s hs).nonempty
      exact ⟨l', s.value, ⟨s, hs, rfl, hl'⟩, Scalar.Agrees.trans (.inr he) hyx⟩
  · rintro ⟨l, hl⟩
    exact ⟨l, (h.stores x l).2 (.inl ⟨hl, fun hnew => hold hnew.1⟩)⟩

/-- As long as no value was new, later values are news just if they were in the beginning. -/
theorem Collects.renews_iff (h : q.Collects additions q')
    (hlabelled : ∀ s ∈ q.supports.supports, s.Labelled) (hold : ¬ q.Renews additions)
    (hvalid : ∀ a ∈ additions', a.Valid q) :
    q'.Renews additions' ↔ q.Renews additions' := by
  unfold Renews
  refine exists_congr fun a => and_congr_right fun ha => ?_
  rw [h.digits]
  refine exists_congr fun rounded => and_congr_right fun hr => ?_
  refine exists_congr fun y => and_congr_right fun hy => ?_
  have hdef := defined_of_roundList hr (hvalid a ha).defined y hy
  rw [← Bool.not_eq_true, ← Bool.not_eq_true, h.contains_iff hlabelled hold hdef]

/-- Additions one after the other. -/
theorem Collects.append (h : q.Collects additions q') (h' : q'.Collects additions' q'')
    (hd : q.Derivable) (hlabelled : ∀ s ∈ q.supports.supports, s.Labelled)
    (hvalid : ∀ a ∈ additions ++ additions', a.Valid q) :
    q.Collects (additions ++ additions') q'' := by
  have hlater : ¬ q.Renews additions → (q'.Renews additions' ↔ q.Renews additions') := fun hold =>
    h.renews_iff hlabelled hold fun a ha => hvalid a (List.mem_append_right _ ha)
  have hundoes : ∀ l, q'.Undoes l ↔ q.Undoes l ∧ ¬ q.Renews additions := by
    intro l
    rw [Undoes, Undoes, h.generative, h.info, and_right_comm]
  have hputs : ∀ x l, q'.Puts additions' x l ↔ q.Puts additions' x l := by
    simp only [Puts, h.digits, implies_true]
  -- no addition has the label of derived supports in place
  have hspared : ∀ x l, q.Puts additions x l → ¬ q.Undoes l := by
    rintro x l ⟨a, ha, rfl, -⟩
    exact (hvalid a (List.mem_append_left _ ha)).apart.not_undoes hd
  refine ⟨h'.info.trans h.info, h'.digits.trans h.digits, h'.domain.trans h.domain, h'.firm,
    h'.labelled, fun x l => ?_, ?_, ?_⟩
  · -- a pair goes with the first new value, whichever of the two parts brings that
    rw [h'.stores, h.stores, hundoes, hputs, puts_append, renews_append]
    have := hspared x l
    tauto
  · rw [h'.generative, h.generative, renews_append]
    tauto
  · rw [h'.equations, h.equations, renews_append]
    tauto

/-- What a single addition makes of a parameter: if any value is new, the label of derived supports
in place goes, which is not that of the addition. -/
theorem Collects.single (ha : a.Valid q) (hd : q.Derivable) {rounded : List α}
    (hr : roundList q.digits a.values = .ok rounded) {new : Bool}
    (hnew : (q.supports.addAll rounded a.label).1 = new)
    (hsame : q'.info = q.info ∧ q'.digits = q.digits ∧ q'.domain = q.domain) (hfirm : q'.Firm)
    (hlabelled : ∀ s ∈ q'.supports.supports, s.Labelled)
    (hstores : ∀ x l, q'.supports.StoresLike x l ↔
      (q.supports.addAll rounded a.label).2.StoresLike x l ∧ ¬ (new = true ∧ q.Undoes l))
    (hgenerative : q'.hasGenerative = (q.hasGenerative && !new))
    (hequations : q'.hasEquations = (q.hasEquations && !new)) : q.Collects [a] q' := by
  -- one addition renews the parameter just if it brings a new value
  have hrenews : q.Renews [a] ↔ new = true := by
    rw [← hnew, SupportMap.addAll_eq_true_iff]
    simp [Renews, hr]
  have hputs : ∀ x l, q.Puts [a] x l ↔ l = a.label ∧ ∃ y ∈ rounded, Scalar.Agrees y x := by
    simp [Puts, hr, eq_comm]
  -- an addition does not undo its own label
  have hspared : ∀ x l, q.Puts [a] x l → ¬ q.Undoes l := by
    rintro x l ⟨_, hmem, rfl, -⟩
    obtain rfl := List.mem_singleton.1 hmem
    exact ha.apart.not_undoes hd
  refine ⟨hsame.1, hsame.2.1, hsame.2.2, hfirm, hlabelled, fun x l => ?_, ?_, ?_⟩
  · rw [hstores, SupportMap.storesLike_addAll_iff, ← hputs, hrenews, or_and_right]
    exact or_congr_right (and_iff_left_of_imp fun h hboth => hspared x l h hboth.2)
  · simp [hgenerative, hrenews]
  · simp [hequations, hrenews]

/-- What the same additions make of a parameter is the same up to the form of values. -/
theorem Collects.alike (h : q.Collects additions q') (h' : q.Collects additions q'') :
    q'.supports.Alike q''.supports ∧ q'.hasGenerative = q''.hasGenerative ∧
      q'.hasEquations = q''.hasEquations := by
  refine ⟨SupportMap.alike_of_storesLike_iff h.firm.increasing h'.firm.increasing
    (fun s hs => (h.labelled s hs).nonempty) (fun s hs => (h'.labelled s hs).nonempty)
    fun x l => (h.stores x l).trans (h'.stores x l).symm, ?_, ?_⟩
  · rw [Bool.eq_iff_iff, h.generative, h'.generative]
  · rw [Bool.eq_iff_iff, h.equations, h'.equations]

end Parameter

/-! ## Runs -/

namespace Store

open Workspace

variable [LawfulScalar α] {w : Workspace α} {p : Ref}

/-- What an addition makes of a parameter that takes it. It does not fail. -/
theorem ends_add_collects (hq : w.model.parameter (.given p) = .ok q) (hfirm : q.Firm)
    (hlabelled : ∀ s ∈ q.supports.supports, s.Labelled) (ha : a.Valid q) :
    Ends (add p a.values (.given a.label) a.checked) w
      (fun _ w' => ∃ q', w'.model.parameter (.given p) = .ok q' ∧ q.Collects [a] q')
      fun _ => False := by
  obtain ⟨rounded, hr, hbounds⟩ := ha.accepted
  have hdef := defined_of_roundList hr ha.defined
  have hgrown := hfirm.grown hdef a.label
  have hlabelled' := SupportMap.labelled_addAll hlabelled ha.storable rounded
  refine (ends_add_takes hq hfirm.derivable).mono ?_ ?_
  · rintro anyNew w' ⟨l, rounded', q', hadmitted, htakes, hq'⟩
    obtain rfl : a.label = l := Argument.given.inj hadmitted.given
    obtain rfl : rounded = rounded' := Except.ok.inj (hr.symm.trans hadmitted.rounds)
    refine ⟨q', hq', ?_⟩
    cases htakes with
    | known hold =>
      refine .single ha hfirm.derivable hr hold ⟨rfl, rfl, rfl⟩ hgrown hlabelled'
        (fun x l => ?_) ?_ ?_ <;> simp [Parameter.grown]
    | beside hnew hmissing =>
      refine .single ha hfirm.derivable hr hnew ⟨rfl, rfl, rfl⟩ (hgrown.note false) hlabelled'
        (fun x l => ?_) ?_ ?_
      · simp [Parameter.Undoes, hmissing, Parameter.grown]
      · simp [hmissing, Parameter.grown]
      · simp
    | @displacing basis derived internal hnew hplaced hinfo hown hdone _ =>
      refine .single ha hfirm.derivable hr hnew ⟨rfl, rfl, rfl⟩
        ((hgrown.without [derived] internal).note false)
        (SupportMap.labelled_strip hlabelled' [derived]) (fun x l => ?_) ?_ ?_
      · refine (SupportMap.storesLike_strip_iff hdone).trans (and_congr_right fun _ => ?_)
        have hlabel : q.info.label = .ok derived := by rw [hinfo]; rfl
        simp [Label.coveredBy, covers_eq_beq hown, Parameter.Undoes, hplaced, hlabel,
          eq_comm (a := l)]
      · simp [Parameter.without]
      · simp
  · rintro w' (⟨-, hnone⟩ | ⟨l, rounded', q', hadmitted, hchokes, -⟩)
    · exact hnone a.label rounded ⟨rfl, ha.storable, hr, hbounds⟩
    · obtain rfl : rounded = rounded' := Except.ok.inj (hr.symm.trans hadmitted.rounds)
      exact Parameter.not_chokes (hfirm.grown hdef l).increasing hchokes

/-- Additions that a parameter takes do not fail, and they make of it what they do together. -/
theorem ends_addEach_collects (hq : w.model.parameter (.given p) = .ok q) (hfirm : q.Firm)
    (hlabelled : ∀ s ∈ q.supports.supports, s.Labelled) (hvalid : ∀ a ∈ additions, a.Valid q) :
    Ends (addEach p additions) w
      (fun _ w' => ∃ q', w'.model.parameter (.given p) = .ok q' ∧ q.Collects additions q')
      fun _ => False := by
  unfold addEach
  rw [ends_bind]
  -- the parameter has collected the additions gone through, and so it takes the next one as well
  refine (Ends.forIn (fun gone w' => ∃ q', w'.model.parameter (.given p) = .ok q' ∧
    q.Collects gone q') ⟨q, hq, .refl hfirm hlabelled⟩ ?_).mono (fun _ _ h => (ends_pure _).2 h)
    fun _ h => h
  rintro gone a rest w₁ rfl ⟨q₁, hq₁, hgone⟩
  have ha := (hvalid a (by simp)).congr hgone.info hgone.digits hgone.domain
  rw [ends_bind]
  refine (ends_add_collects hq₁ hgone.firm hgone.labelled ha).mono ?_ fun _ h => h
  rintro _ w₂ ⟨q₂, hq₂, hlast⟩
  refine (ends_pure _).2 ⟨rfl, q₂, hq₂, hgone.append hlast hfirm.derivable hlabelled ?_⟩
  exact fun b hb => hvalid b (by simp at hb ⊢; tauto)

end Store

/-- Additions to a parameter can be made in any order: none fails, and they leave the same values
with the same labels, up to the form of values, and the same flags, whether or not derived supports
are in place before. -/
theorem alike_of_perm [LawfulScalar α] {m : Model α} (h : Requested m) (hdef : m.Defined) {p : Ref}
    (hq : m.parameter (.given p) = .ok q) (hvalid : ∀ a ∈ additions, a.Valid q)
    (hperm : additions.Perm additions') (e e' : Environment α) :
    ∃ w w' q₁ q₂, Store.addEach p additions ⟨e, m⟩ = .ok () w ∧
      Store.addEach p additions' ⟨e', m⟩ = .ok () w' ∧
      w.model.parameter (.given p) = .ok q₁ ∧ w'.model.parameter (.given p) = .ok q₂ ∧
      q₁.supports.Alike q₂.supports ∧ q₁.hasGenerative = q₂.hasGenerative ∧
      q₁.hasEquations = q₂.hasEquations := by
  have hfirm := Model.firm_of_requested h hdef p q hq
  have hlabelled := (Parameter.tidy_of_requested h p q hq).labelled
  obtain ⟨_, w, hrun, q₁, hq₁, hcollects⟩ := (Store.ends_addEach_collects (w := ⟨e, m⟩) hq hfirm
    hlabelled hvalid).exists_ok
  obtain ⟨_, w', hrun', q₂, hq₂, hcollects'⟩ := (Store.ends_addEach_collects (w := ⟨e', m⟩) hq hfirm
    hlabelled fun a ha => hvalid a (hperm.mem_iff.2 ha)).exists_ok
  exact ⟨w, w', q₁, q₂, hrun, hrun', hq₁, hq₂, (hcollects.perm hperm).alike hcollects'⟩

/-- A value that a derived support has already, a new value and a second derived one, with derived
supports and equations in place. In the other order, the new value comes first. -/
theorem alike_of_perm_derived :
    let p : Ref := ⟨0, .parameter, 1⟩
    let x : Ref := ⟨0, .infiniteVariable, 1⟩
    let m : Model ℚ := Request.replay { id := 0 }
      [.addParameter (.scalar (.interval 0 1)) "t" (some [0, 1]) 0 (some 6)
        (.finiteDifference .backward),
      .addInfiniteVariable "x" [.given p] none none .none false,
      .addDerivative (.given x) p "dx" (.ok "t"),
      .setGenerativeInfo p (.given (.uniform [1 / 4, 1 / 2] .collocation)),
      .evaluateAll]
    let a : Addition ℚ := ⟨[1 / 2, 1], .uniformGrid, true⟩
    let b : Addition ℚ := ⟨[3 / 4, 0], .userDefined, true⟩
    let c : Addition ℚ := ⟨[1 / 4], .userDefined, false⟩
    Requested m ∧ m.Defined ∧ ∃ q, m.parameter (.given p) = .ok q ∧ q.hasGenerative = true ∧
      q.hasEquations = true ∧ (∀ addition ∈ [a, b, c], addition.Valid q) ∧
      [a, b, c].Perm [b, a, c] ∧
      ∃ w w' q₁ q₂, Store.addEach p [a, b, c] ⟨{}, m⟩ = .ok () w ∧
        Store.addEach p [b, a, c] ⟨{}, m⟩ = .ok () w' ∧
        w.model.parameter (.given p) = .ok q₁ ∧ w'.model.parameter (.given p) = .ok q₂ ∧
        q₁.supports.Alike q₂.supports ∧ q₁.hasGenerative = q₂.hasGenerative ∧
        q₁.hasEquations = q₂.hasEquations := by
  intro p x m a b c
  have hr : Requested m := .replay (.start 0 "model") _
  have hdef : m.Defined := .of_exact m
  obtain ⟨q, hq, hinfo, hgenerative, hequations, hlabels, haccepts⟩ := Except.exists_of_decide
    (x := m.parameter (.given p)) (fun q => q.info = .uniform [1 / 4, 1 / 2] .collocation ∧
      q.hasGenerative = true ∧ q.hasEquations = true ∧
      (∀ addition ∈ [a, b, c], addition.label.isSelector = false ∧
        addition.label ≠ .collocation) ∧
      ∀ addition ∈ [a, b, c], ((roundList q.digits addition.values).toOption.any fun rounded =>
        decide ((q.checkBounds rounded).toOption = some ())) = true) (by decide +kernel)
  -- none has the label of derived supports, and all their values fit
  have hvalid : ∀ addition ∈ [a, b, c], addition.Valid q := by
    intro addition hmem
    obtain ⟨hstorable, hne⟩ := hlabels addition hmem
    obtain ⟨rounded, hrounds, hinside⟩ := Except.exists_of_decide
      (x := roundList q.digits addition.values) _ (haccepts addition hmem)
    refine ⟨hstorable, fun basis derived hinfo' => ?_, fun _ _ => ExactScalar.defined _, rounded,
      hrounds, fun _ => Except.eq_ok_of_toOption hinside⟩
    simp only [hinfo, GenerativeInfo.uniform.injEq] at hinfo'
    exact hinfo'.2 ▸ hne.symm
  have hperm : [a, b, c].Perm [b, a, c] := .swap b a [c]
  exact ⟨hr, hdef, q, hq, hgenerative, hequations, hvalid, hperm,
    alike_of_perm hr hdef hq hvalid hperm {} {}⟩

end Discretization
