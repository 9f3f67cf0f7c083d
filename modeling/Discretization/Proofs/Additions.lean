import Discretization.Proofs.Derivations

/-!
# What an Addition Leaves

An addition attaches its label to the stored ones of its values and inserts the others. If it
inserts any, derived supports that are in place are out of date, and the addition takes them away
before it is done. These are recognised by their label alone. An addition under that very label
therefore takes away what it has just stored, and it still reports new values.

## Main definitions

* `SupportMap.StoresLike`: a value is stored under a label, as given or in an equal form;
* `Parameter.Undoes`: derived supports in place have the label of an addition.

## Main results

* `SupportMap.addAll_eq_true_iff`: an addition reports new values just if one was not stored;
* `Store.ends_add_storesLike`: what an addition reports and leaves under its label;
* `storesLike_iff_of_requested`: an addition keeps its values unless it undoes itself;
* `not_storesLike_of_requested`: a value that was just added can be gone.
-/

namespace Discretization

open Operation Workspace

variable {α : Type} [Scalar α]

namespace SupportMap

variable {m : SupportMap α} {x value : α} {l label : Label} {values : List α}

/-- A value is stored under a label, as given or in an equal form. -/
def StoresLike (m : SupportMap α) (x : α) (l : Label) : Prop :=
  ∃ y, m.Stores y l ∧ Scalar.Agrees y x

/-! ## New values -/

@[simp]
theorem add_fst (m : SupportMap α) (value : α) (label : Label) :
    (m.add value label).1 = !m.contains value := by
  unfold add
  split <;> simp [*]

/-- An addition reports new values just if one of the values was not stored before. -/
theorem addAll_eq_true_iff (label : Label) :
    (m.addAll values label).1 = true ↔ ∃ x ∈ values, m.contains x = false := by
  constructor
  · intro hnew
    by_contra hall
    rw [addAll_of_contained label] at hnew
    · simp at hnew
    · simpa using hall
  · rintro ⟨x, hx, hmissing⟩
    -- over the values, with the map of what the earlier ones have left
    induction values generalizing m with
    | nil => simp at hx
    | cons first rest ih =>
      rw [addAll_cons, Bool.or_eq_true, add_fst]
      by_cases hfirst : m.contains first = true
      · -- with the first value stored, the values are as before, so `x` is still missing
        right
        apply ih
        · rcases List.mem_cons.1 hx with rfl | hx
          · simp [hmissing] at hfirst
          · exact hx
        · rw [Bool.eq_false_iff, ne_eq, contains_iff] at hmissing ⊢
          rwa [(add_of_contains label hfirst).2]
      · simp [hfirst]

/-! ## Labels that stay and labels that go -/

theorem StoresLike.strip (h : m.StoresLike x l) {selectors : List Label}
    (hl : Label.coveredBy selectors l = false) : (m.strip selectors).1.StoresLike x l := by
  obtain ⟨y, hy, hyx⟩ := h
  exact ⟨y, hy.strip hl, hyx⟩

omit [Scalar α] in
/-- What is left of a support has no label that the selectors cover. -/
theorem not_covered_of_stripped {selectors : List Label} {s s' : Support α}
    (h : s.stripped selectors = some s') (hl : l ∈ s'.labels) :
    Label.coveredBy selectors l = false := by
  unfold Support.stripped at h
  split at h
  · simp at h
  · obtain rfl := Option.some.inj h
    simpa using (List.mem_filter.1 hl).2

/-- Where stripping labels goes through to the end, they are nowhere in store. -/
theorem not_storesLike_strip_of_covered {selectors : List Label}
    (hdone : (m.strip selectors).2 = none) (hl : Label.coveredBy selectors l = true) :
    ¬ (m.strip selectors).1.StoresLike x l := by
  rintro ⟨y, ⟨s, hs, -, hmem⟩, -⟩
  rw [strip_of_done hdone] at hs
  obtain ⟨s₀, -, hstripped⟩ := List.mem_filterMap.1 hs
  simp [not_covered_of_stripped hstripped hmem] at hl

end SupportMap

/-- Derived supports are in place and have the given label, so a new value under that label goes
with them. -/
def Parameter.Undoes (q : Parameter α) (label : Label) : Prop :=
  q.hasGenerative = true ∧ q.info.label = .ok label

namespace Store

variable {w : Workspace α} {p : Ref} {q : Parameter α} {values : List α} {label : Label}
  {checked : Bool}

/-- What an addition reports, and what it leaves under its label. -/
theorem ends_add_storesLike (hq : w.model.parameter (.given p) = .ok q) (hderivable : q.Derivable) :
    Ends (add p values (.given label) checked) w
      (fun anyNew w' => ∃ q' rounded, w'.model.parameter (.given p) = .ok q' ∧
        roundList q.digits values = .ok rounded ∧
        (anyNew = true ↔ ∃ x ∈ rounded, q.supports.contains x = false) ∧
        ((∀ x ∈ rounded, q'.supports.StoresLike x label) ↔ ¬ (anyNew = true ∧ q.Undoes label)))
      fun _ => True := by
  refine (ends_add_takes hq hderivable).mono ?_ fun _ _ => trivial
  rintro anyNew w' ⟨l, rounded, q', hadmitted, htakes, hq'⟩
  obtain rfl : label = l := Argument.given.inj hadmitted.given
  refine ⟨q', rounded, hq', hadmitted.rounds, ?_⟩
  rw [← SupportMap.addAll_eq_true_iff label]
  have hstored : ∀ x ∈ rounded, (q.supports.addAll rounded label).2.StoresLike x label :=
    fun x hx => SupportMap.exists_stores_addAll q.supports label hx
  cases htakes with
  | known hold => exact ⟨by simp [hold], iff_of_true hstored (by simp)⟩
  | beside hnew hmissing =>
    exact ⟨by simp [hnew], iff_of_true hstored (by simp [Parameter.Undoes, hmissing])⟩
  | @displacing basis derived internal hnew hplaced hinfo hown hdone _ =>
    refine ⟨by simp [hnew], ?_⟩
    have hlabel : q.info.label = .ok derived := by rw [hinfo]; rfl
    by_cases hsame : derived = label
    · -- the label goes, and with it the new value
      subst hsame
      have hcovered : Label.coveredBy [derived] derived = true := by
        simp [Label.coveredBy, covers_eq_beq hown]
      obtain ⟨x, hx, -⟩ := (SupportMap.addAll_eq_true_iff derived).1 hnew
      exact iff_of_false (fun hall =>
        SupportMap.not_storesLike_strip_of_covered hdone hcovered (hall x hx))
        (by simp [Parameter.Undoes, hplaced, hlabel])
    · exact iff_of_true (fun x hx => (hstored x hx).strip (coveredBy_singleton hown hsame))
        (by simp [Parameter.Undoes, hlabel, hsame])

end Store

/-- An addition reports new values just if one of the rounded values was not stored before. All of
them are stored under the label afterwards, except if one was new and derived supports were in place
under the same label. -/
theorem storesLike_iff_of_requested {m : Model α} (h : Requested m) {e : Environment α} {p : Ref}
    {values : List α} {label : Label} {checked anyNew : Bool} {w' : Workspace α}
    (hadd : Store.add p values (.given label) checked ⟨e, m⟩ = .ok anyNew w') :
    ∃ q q' rounded, m.parameter (.given p) = .ok q ∧ w'.model.parameter (.given p) = .ok q' ∧
      roundList q.digits values = .ok rounded ∧
      (anyNew = true ↔ ∃ x ∈ rounded, q.supports.contains x = false) ∧
      ((∀ x ∈ rounded, q'.supports.StoresLike x label) ↔
        ¬ (anyNew = true ∧ q.hasGenerative = true ∧ q.info.label = .ok label)) := by
  by_cases hlive : ∃ q, m.parameter (.given p) = .ok q
  · obtain ⟨q, hq⟩ := hlive
    have hderivable := Parameter.derivable_of_requested h p q hq
    obtain ⟨q', rounded, hq', hr, hnew, hstores⟩ :=
      (Store.ends_add_storesLike (w := ⟨e, m⟩) hq hderivable).of_ok hadd
    exact ⟨q, q', rounded, hq, hq', hr, hnew, hstores⟩
  -- without the parameter an addition fails before it does anything
  · have hfails : Ends (Store.add p values (.given label) checked) ⟨e, m⟩ (fun _ _ => False)
        fun _ => True := by
      unfold Store.add
      rw [ends_bind, ends_query]
      exact ⟨fun q hq => absurd ⟨q, hq⟩ hlive, fun _ _ => trivial⟩
    exact (hfails.of_ok hadd).elim

/-- A new value beside one that derived supports have already. They go, and both values stay. -/
theorem storesLike_iff_of_requested_derived :
    let p : Ref := ⟨0, .parameter, 1⟩
    let m : Model ℚ := Request.replay { id := 0 }
      [.addParameter (.scalar (.interval 0 1)) "t" (some [0, 1]) 0 (some 6)
        (.finiteDifference .backward),
      .setGenerativeInfo p (.given (.uniform [1 / 4, 1 / 2] .collocation)),
      .addGenerativeSupports p]
    let values : List ℚ := [1 / 2, 3 / 4]
    Requested m ∧
      ∃ w', Store.add p values (.given .userDefined) true ⟨{}, m⟩ = .ok true w' ∧
        ∃ q q' rounded, m.parameter (.given p) = .ok q ∧ w'.model.parameter (.given p) = .ok q' ∧
          roundList q.digits values = .ok rounded ∧
          (true = true ↔ ∃ x ∈ rounded, q.supports.contains x = false) ∧
          ((∀ x ∈ rounded, q'.supports.StoresLike x .userDefined) ↔
            ¬ (true = true ∧ q.hasGenerative = true ∧ q.info.label = .ok .userDefined)) := by
  intro p m values
  have hr : Requested m := .replay (.start 0 "model") _
  have hruns : Ends (Store.add p values (.given .userDefined) true) ⟨{}, m⟩
      (fun anyNew _ => anyNew = true) fun _ => False := by decide +kernel
  obtain ⟨anyNew, w', hadd, rfl⟩ := hruns.exists_ok
  exact ⟨hr, w', hadd, storesLike_iff_of_requested hr hadd⟩

/-- With the nodes of a collocation in place, a new value under their label is reported as new and
is gone, and so are the nodes. -/
theorem not_storesLike_of_requested :
    ¬ ∀ (m : Model Float) (e : Environment Float) (p : Ref) (values : List Float) (label : Label)
      (checked anyNew : Bool) (w' : Workspace Float) (q q' : Parameter Float)
      (rounded : List Float), Requested m → label.isSelector = false →
        Store.add p values (.given label) checked ⟨e, m⟩ = .ok anyNew w' →
          m.parameter (.given p) = .ok q → w'.model.parameter (.given p) = .ok q' →
            roundList q.digits values = .ok rounded →
              ∀ x ∈ rounded, q'.supports.StoresLike x label := by
  intro hall
  let p : Ref := ⟨0, .parameter, 1⟩
  let m : Model Float := Request.replay { id := 0 }
    [.addParameter (.scalar (.interval 0 1)) "t" (some [0, 1]) 0 (some 12)
      (.orthogonalCollocation 3),
    .addGenerativeSupports p]
  have hr : Requested m := .replay (.start 0 "model") _
  -- the runs are only asked how many values they have, and for labels
  obtain ⟨q, hq, rounded, hrounds, hone⟩ : ∃ q, m.parameter (.given p) = .ok q ∧
      ∃ rounded, roundList q.digits [0.25] = .ok rounded ∧ rounded.length = 1 := by
    obtain ⟨q, hq, hrounds⟩ := Except.exists_of_decide (x := m.parameter (.given p))
      (fun q => (roundList q.digits [0.25]).toOption.any (·.length = 1) = true) (by decide +kernel)
    exact ⟨q, hq, Except.exists_of_decide (x := roundList q.digits [0.25]) (·.length = 1) hrounds⟩
  have hruns : Ends (Store.add p [0.25] (.given .collocation) true) ⟨{}, m⟩
      (fun _ w' => ((w'.model.parameter (.given p)).toOption.any fun q' =>
        decide (∀ s ∈ q'.supports.supports, .collocation ∉ s.labels)) = true)
      fun _ => False := by decide +kernel
  obtain ⟨anyNew, w', hadd, hgone⟩ := hruns.exists_ok
  obtain ⟨q', hq', hgone⟩ := Except.exists_of_decide _ hgone
  obtain ⟨x, hx⟩ := List.exists_mem_of_length_pos (l := rounded) (by omega)
  obtain ⟨y, ⟨s, hs, -, hl⟩, -⟩ :=
    hall m {} p [0.25] .collocation true anyNew w' q q' rounded hr (by decide) hadd hq hq' hrounds
      x hx
  exact hgone s hs hl

end Discretization
