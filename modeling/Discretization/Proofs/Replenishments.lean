import Discretization.Proofs.Additions

/-!
# Filling In Supports

To fill in the supports of a parameter up to some number, all stored ones are counted and as many
values as are missing are generated and added. If these values are new, there are then exactly as
many supports as asked for. But new values put derived supports out of date, and the addition takes
those away in the end, although they were counted before. So a parameter with derived supports in
place misses the number by the supports that have no label but theirs. Where the generator stores
its values under that very label, these are missing too.

## Main definitions

* `SupportMap.Fresh`: values that differ from one another and from all stored ones;
* `Parameter.Generates`: the values that are generated for a parameter that lacks supports;
* `Parameter.lost`: the values that are counted, or added, and go with derived supports.

## Main results

* `SupportMap.perm_addAll`: adding fresh values adds one support for each of them;
* `SupportMap.size_strip`: what is left of the supports when a label is stripped;
* `replenished_of_requested`: filling in gives as many supports as asked for, but for lost ones;
* `not_replenished_of_requested`: filling in can give fewer supports than asked for.
-/

namespace Discretization

open Operation Workspace

variable {α : Type} [Scalar α]

/-! ## Counting supports -/

namespace SupportMap

variable {m : SupportMap α} {x y : α} {values : List α} {label l : Label}

/-- The values differ from one another and from all stored ones. -/
structure Fresh (m : SupportMap α) (values : List α) : Prop where
  distinct : values.Pairwise fun x y => (x == y) = false
  missing : ∀ x ∈ values, m.contains x = false

/-- The values that carry no label but the given one. The others are those to derive from. -/
def onlyValues (m : SupportMap α) (label : Label) : List α :=
  (m.supports.filter (·.labels == [label])).map (·.value)

omit [Scalar α] in
theorem size_eq (m : SupportMap α) (label : Label) :
    m.size = (m.baseValues label).length + (m.onlyValues label).length := by
  rw [size, baseValues, onlyValues, List.length_map, List.length_map,
    List.length_eq_length_filter_add (·.labels != [label])]
  simp only [bne, Bool.not_not]

theorem not_contains_add (label : Label) (hy : m.contains y = false) (hxy : (x == y) = false) :
    (m.add x label).2.contains y = false := by
  rw [Bool.eq_false_iff, ne_eq, contains_iff] at hy ⊢
  rintro ⟨z, hz, hzy⟩
  rcases mem_values_add hz with hz | rfl
  · exact hy ⟨z, hz, hzy⟩
  · simp [hxy] at hzy

/-- Once the first of some fresh values is added, the others are still fresh. -/
theorem Fresh.tail (h : m.Fresh (x :: values)) (label : Label) : (m.add x label).2.Fresh values :=
  have hdistinct := List.pairwise_cons.1 h.distinct
  ⟨hdistinct.2, fun y hy =>
    not_contains_add label (h.missing y (List.mem_cons_of_mem x hy)) (hdistinct.1 y hy)⟩

/-- Adding fresh values adds one support for each of them and changes no other. -/
theorem perm_addAll (h : m.Fresh values) (label : Label) :
    (m.addAll values label).2.supports.Perm (values.map (⟨·, [label]⟩) ++ m.supports) := by
  induction values generalizing m with
  | nil => exact .refl _
  | cons x rest ih =>
    rw [addAll_cons]
    refine (ih (h.tail label)).trans ?_
    rw [add_of_not_contains label (h.missing x List.mem_cons_self)]
    have hinsert := List.perm_insertIdx ⟨x, [label]⟩ m.supports (positionAfter_le m.supports x)
    exact (hinsert.append_left _).trans List.perm_middle

theorem size_addAll (h : m.Fresh values) (label : Label) :
    (m.addAll values label).2.size = m.size + values.length := by
  rw [size, (perm_addAll h label).length_eq, List.length_append, List.length_map, size,
    Nat.add_comm]

/-- Fresh values have no label but the one they were added under. -/
theorem length_onlyValues_addAll (h : m.Fresh values) (label l : Label) :
    ((m.addAll values label).2.onlyValues l).length =
      (m.onlyValues l).length + if label = l then values.length else 0 := by
  have hperm := ((perm_addAll h label).filter (·.labels == [l])).length_eq
  rw [List.filter_append, List.length_append, List.filter_map] at hperm
  rw [onlyValues, onlyValues, List.length_map, List.length_map, hperm, Nat.add_comm]
  split
  · simp [*]
  · simp [*]

/-- Where a label is stripped to the end, the supports that have no other label go. -/
theorem size_strip (hdone : (m.strip [label]).2 = none)
    (hlabelled : ∀ s ∈ m.supports, s.Labelled) (hown : label.isSelector = false) :
    (m.strip [label]).1.size + (m.onlyValues label).length = m.size := by
  have hlength := congrArg List.length (values_strip hdone hlabelled hown)
  rw [values, List.length_map] at hlength
  rw [size, hlength, ← size_eq]

end SupportMap

/-! ## Filling in -/

namespace Parameter

variable {q : Parameter α}

omit [Scalar α] in
theorem count_all (q : Parameter α) : q.count .all = q.supports.size := by
  simp [count, takesAll]

/-- The values that are generated for a parameter that lacks supports, rounded, and their label: as
many as are missing. An interval that has supports already is sampled; for any other domain its
default method is used. -/
structure Generates (q : Parameter α) (e : Environment α) (asked : Int) (source : Option Nat)
    (values : List α) (label : Label) : Prop where
  lacks : q.count .all < asked
  generates : ∃ found e', Generation.generate q.domain
      (if 0 < q.count .all ∧ q.domain.kind = intervalKind then some .monteCarlo else none)
      (some (asked - q.count .all)) (some q.digits) source e = .ok (found, label) e' ∧
    q.round found.entries = .ok values
  missing : (values.length : Int) = asked - q.count .all

/-- The values that go with derived supports when values are added under a label: if derived
supports are in place, those that carry their label alone, and the added ones if it is their
label. -/
def lost (q : Parameter α) (added : List α) (label : Label) : List α :=
  if q.hasGenerative then
    q.info.label.toOption.elim [] fun derived =>
      q.supports.onlyValues derived ++ if label = derived then added else []
  else []

omit [Scalar α] in
/-- Nothing is lost just if no derived supports are in place, or each of them has another label too
and the added ones do not come under theirs. -/
theorem lost_eq_nil_iff {added : List α} (hsome : added ≠ []) (label : Label) :
    q.lost added label = [] ↔ ∀ derived, q.hasGenerative = true → q.info.label = .ok derived →
      label ≠ derived ∧ ∀ s ∈ q.supports.supports, s.labels ≠ [derived] := by
  unfold lost
  cases q.hasGenerative with
  | false => simp
  | true =>
    cases q.info.label with
    | error error => simp [Except.toOption]
    | ok derived => simp [Except.toOption, SupportMap.onlyValues, hsome, and_comm]

end Parameter

namespace Store

variable {w : Workspace α} {p : Ref} {q : Parameter α} {values : List α} {label : Label}
  {checked : Bool}

/-- How many supports an addition of fresh values leaves. -/
theorem ends_add_count (hq : w.model.parameter (.given p) = .ok q) (hderivable : q.Derivable)
    (hlabelled : ∀ s ∈ q.supports.supports, s.Labelled) (hsome : values ≠ []) :
    Ends (add p values (.given label) checked) w
      (fun _ w' => ∃ q' rounded, w'.model.parameter (.given p) = .ok q' ∧
        q.round values = .ok rounded ∧ (q.supports.Fresh rounded →
          q'.count .all + (q.lost rounded label).length = q.count .all + rounded.length))
      fun _ => True := by
  refine (ends_add_takes hq hderivable).mono ?_ fun _ _ => trivial
  rintro anyNew w' ⟨l, rounded, q', hadmitted, htakes, hq'⟩
  obtain rfl : label = l := Argument.given.inj hadmitted.given
  refine ⟨q', rounded, hq', hadmitted.rounds, fun hfresh => ?_⟩
  simp only [Parameter.count_all]
  have hsize := SupportMap.size_addAll hfresh label
  cases htakes with
  | known hold =>
    -- some of the values would be new
    obtain ⟨x, hx⟩ := List.exists_mem_of_ne_nil rounded fun hempty => hsome (by
      have hlength := length_of_roundList hadmitted.rounds
      rw [hempty] at hlength
      exact List.length_eq_zero_iff.1 hlength.symm)
    have hnew := (SupportMap.addAll_eq_true_iff label).2 ⟨x, hx, hfresh.missing x hx⟩
    simp [hold] at hnew
  | beside _ hmissing => simpa [Parameter.lost, hmissing, Parameter.grown] using hsize
  | @displacing basis derived internal _ hplaced hinfo hown hdone _ =>
    have hlabel : q.info.label = .ok derived := by rw [hinfo]; rfl
    have hlost : q.lost rounded label =
        q.supports.onlyValues derived ++ if label = derived then rounded else [] := by
      simp [Parameter.lost, hplaced, hlabel, Except.toOption]
    have hstrip := SupportMap.size_strip hdone
      (SupportMap.labelled_addAll hlabelled hadmitted.storable rounded) hown
    rw [hsize, SupportMap.length_onlyValues_addAll hfresh] at hstrip
    rw [hlost, List.length_append, apply_ite List.length, List.length_nil]
    exact hstrip

/-- Filling in leaves a parameter with enough supports alone. Otherwise it adds as many values as
are missing, and if these are fresh, only lost ones are missing afterwards. -/
theorem ends_fillIn_count (hq : w.model.parameter (.given p) = .ok q)
    {domain : ScalarDomain α} (hscalar : q.domain = .scalar domain) (hderivable : q.Derivable)
    (hlabelled : ∀ s ∈ q.supports.supports, s.Labelled) (he : w.environment.Supplies) (asked : Int)
    (source : Option Nat) :
    Ends (fillIn p (some asked) true source) w
      (fun _ w' => ∃ q', w'.model.parameter (.given p) = .ok q' ∧
        (asked ≤ q.count .all ∧ w' = w ∨
          ∃ added label, q.Generates w.environment asked source added label ∧
            (q.supports.Fresh added →
              (q'.count .all : Int) + (q.lost added label).length = asked)))
      fun _ => True := by
  unfold fillIn
  simp only [pure_bind, Bool.true_or, Bool.true_and, decide_eq_true_eq]
  rw [ends_bind, ends_query_of hq, ends_ite]
  refine ⟨fun hlacks => ?_, fun henough => ?_⟩
  · unfold generateAndAdd
    rw [ends_bind, ends_bind, ends_query_of hq, ends_bind, ends_onEnvironment]
    refine .of_run ?_ fun _ _ _ => trivial
    rintro ⟨found, label⟩ e' hgenerates
    -- the generator keeps to the number that it is asked for
    have hmade := hgenerates
    rw [hscalar] at hmade
    obtain ⟨hsome, hvector⟩ := (Generation.ends_generate _ _ _ _ _ _).of_ok hmade
      (he.delivers label)
    have hlength : (found.entries.length : ℤ) = asked - q.supports.size := by
      rw [(hvector _ rfl).2, Int.toNat_of_nonneg (by omega)]
    refine (ends_add_count (w := { w with environment := e' }) hq hderivable hlabelled hsome).mono
      ?_ fun _ _ => trivial
    rintro _ w' ⟨q', added, hq', hr, hcount⟩
    refine (ends_pure _).2 ⟨q', hq',
      .inr ⟨added, label, ⟨?_, ⟨found, e', ?_, hr⟩, ?_⟩, fun hfresh => ?_⟩⟩
    · rwa [Parameter.count_all]
    · simpa [Parameter.count_all] using hgenerates
    · rw [length_of_roundList hr, hlength, Parameter.count_all]
    · have hcount := hcount hfresh
      have hadded : added.length = found.entries.length := length_of_roundList hr
      rw [Parameter.count_all q] at hcount
      omega
  · refine (ends_pure _).2 ⟨q, hq, .inl ⟨?_, rfl⟩⟩
    rw [Parameter.count_all]
    omega

end Store

/-- Filling in supports leaves a parameter that has as many supports as asked for alone. Otherwise
as many values as are missing are generated. If they are fresh, the parameter has all supports asked
for, apart from those that are lost with derived ones. So it has enough just if no derived supports
are in place, or all of them have another label too and the generator another one than theirs. -/
theorem replenished_of_requested [LawfulScalar α] {m : Model α} (h : Requested m)
    {e : Environment α} (he : e.Supplies) {p : Ref} {asked : Int} {source : Option Nat}
    {w' : Workspace α} (hfill : Store.fillIn p (some asked) true source ⟨e, m⟩ = .ok () w') :
    ∃ q q', m.parameter (.given p) = .ok q ∧ w'.model.parameter (.given p) = .ok q' ∧
      (asked ≤ q.count .all ∧ w' = ⟨e, m⟩ ∨
        ∃ added label, q.Generates e asked source added label ∧ (q.supports.Fresh added →
          (q'.count .all : Int) + (q.lost added label).length = asked ∧
          (asked ≤ q'.count .all ↔
            ∀ derived, q.hasGenerative = true → q.info.label = .ok derived →
              label ≠ derived ∧ ∀ s ∈ q.supports.supports, s.labels ≠ [derived]))) := by
  by_cases hlive : ∃ q, m.parameter (.given p) = .ok q
  · obtain ⟨q, hq⟩ := hlive
    obtain ⟨domain, hscalar⟩ := (h.sound.parameter p q hq).scalar
    have hderivable := Parameter.derivable_of_requested h p q hq
    have hlabelled := (Parameter.tidy_of_requested h p q hq).labelled
    obtain ⟨q', hq', hends⟩ := (Store.ends_fillIn_count (w := ⟨e, m⟩) hq hscalar hderivable
      hlabelled he asked source).of_ok hfill
    refine ⟨q, q', hq, hq', hends.imp_right ?_⟩
    rintro ⟨added, label, hgenerates, hcount⟩
    refine ⟨added, label, hgenerates, fun hfresh => ⟨hcount hfresh, ?_⟩⟩
    have hsome : added ≠ [] := by
      have hlacks := hgenerates.lacks
      have hmissing := hgenerates.missing
      rintro rfl
      simp only [List.length_nil] at hmissing
      omega
    have hcount := hcount hfresh
    rw [← Parameter.lost_eq_nil_iff hsome, ← List.length_eq_zero_iff]
    omega
  -- without the parameter nothing is counted
  · have hfails : Ends (Store.fillIn p (some asked) true source) ⟨e, m⟩ (fun _ _ => False)
        fun _ => True := by
      unfold Store.fillIn
      simp only [pure_bind]
      rw [ends_bind, ends_query]
      exact ⟨fun q hq => absurd ⟨q, hq⟩ hlive, fun _ _ => trivial⟩
    exact (hfails.of_ok hfill).elim

/-- Beside two given supports there is a derived one, and a fourth is asked for. A quarter is
sampled, and a half is lost. -/
theorem replenished_of_requested_sampled :
    let p : Ref := ⟨0, .parameter, 1⟩
    let m : Model ℚ := Request.replay { id := 0 }
      [.addParameter (.scalar (.interval 0 1)) "t" (some [0, 1]) 0 (some 6)
        (.finiteDifference .backward),
      .setGenerativeInfo p (.given (.uniform [1 / 2] .collocation)),
      .addGenerativeSupports p]
    let e : Environment ℚ := { sources := [.replay [1 / 4, 3 / 4] 0] }
    Requested m ∧ e.Supplies ∧
      ∃ w', Store.fillIn p (some 4) true (some 0) ⟨e, m⟩ = .ok () w' ∧
        ∃ q q', m.parameter (.given p) = .ok q ∧ w'.model.parameter (.given p) = .ok q' ∧
          ∃ added label, q.Generates e 4 (some 0) added label ∧ q.supports.Fresh added ∧
            (q'.count .all : Int) + (q.lost added label).length = 4 ∧
            ((4 : Int) ≤ q'.count .all ↔
              ∀ derived, q.hasGenerative = true → q.info.label = .ok derived →
                label ≠ derived ∧ ∀ s ∈ q.supports.supports, s.labels ≠ [derived]) := by
  intro p m e
  have hr : Requested m := .replay (.start 0 "model") _
  have he : e.Supplies := Environment.supplies_default.of_sameRules ⟨rfl, rfl⟩
  have hruns : Ends (Store.fillIn p (some 4) true (some 0)) ⟨e, m⟩ (fun _ _ => True)
      fun _ => False := by decide +kernel
  obtain ⟨_, w', hfill, -⟩ := hruns.exists_ok
  obtain ⟨q, q', hq, hq', hreaches⟩ := replenished_of_requested hr he hfill
  obtain ⟨q₀, hq₀, hthree, hmade⟩ := Except.exists_of_decide (x := m.parameter (.given p))
    (fun q => q.count .all = 3 ∧ Ends (Generation.generate q.domain
        (if 0 < q.count .all ∧ q.domain.kind = intervalKind then some .monteCarlo else none)
        (some (4 - q.count .all)) (some q.digits) (some 0)) e
      (fun found _ => (q.round found.1.entries).toOption.any fun added =>
        added = [1 / 4] ∧ q.supports.contains (1 / 4) = false) fun _ => False)
    (by decide +kernel)
  obtain rfl : q = q₀ := Except.ok.inj (hq.symm.trans hq₀)
  obtain ⟨henough, -⟩ | ⟨added, label, hgenerates, hcount⟩ := hreaches
  · omega
  obtain ⟨found, e', hrun, hround⟩ := hgenerates.generates
  obtain ⟨_, hround', rfl, hmissing⟩ := Except.exists_of_decide _ (hmade.of_ok hrun)
  obtain rfl := Except.ok.inj (hround.symm.trans hround')
  have hfresh : q.supports.Fresh [1 / 4] := ⟨List.pairwise_singleton _ _, by simpa using hmissing⟩
  exact ⟨hr, he, w', hfill, q, q', hq, hq', _, label, hgenerates, hfresh, hcount hfresh⟩

/-- With one node of a collocation between the bounds, a fourth support is asked for. The sampled
value is new, and the node goes, so there are three supports again. -/
theorem not_replenished_of_requested :
    ¬ ∀ (m : Model Float) (e : Environment Float) (p : Ref) (asked : Int) (source : Option Nat)
      (w' : Workspace Float) (q q' : Parameter Float) (added : List Float) (label : Label),
      Requested m → e.Supplies → 1 ≤ asked →
        Store.fillIn p (some asked) true source ⟨e, m⟩ = .ok () w' →
          m.parameter (.given p) = .ok q → w'.model.parameter (.given p) = .ok q' →
            q.Generates e asked source added label → q.supports.Fresh added →
              asked ≤ q'.count .all := by
  intro hall
  let p : Ref := ⟨0, .parameter, 1⟩
  let m : Model Float := Request.replay { id := 0 }
    [.addParameter (.scalar (.interval 0 1)) "t" (some [0, 1]) 0 (some 12)
      (.orthogonalCollocation 3),
    .addGenerativeSupports p]
  let e : Environment Float := { sources := [.replay [0.25, 0.75] 0] }
  have hr : Requested m := .replay (.start 0 "model") _
  have he : e.Supplies := Environment.supplies_default.of_sameRules ⟨rfl, rfl⟩
  -- of the parameter only what is generated for it is looked at: one value, which is new
  obtain ⟨q, hq, hthree, hmade⟩ := Except.exists_of_decide (x := m.parameter (.given p))
    (fun q => q.count .all = 3 ∧ Ends (Generation.generate q.domain
        (if 0 < q.count .all ∧ q.domain.kind = intervalKind then some .monteCarlo else none)
        (some (4 - q.count .all)) (some q.digits) (some 0)) e
      (fun found _ => (q.round found.1.entries).toOption.any fun added =>
        added.length = 1 ∧ ∀ x ∈ added, q.supports.contains x = false) fun _ => False)
    (by decide +kernel)
  obtain ⟨⟨found, label⟩, e', hgenerates, hrounds⟩ := hmade.exists_ok
  obtain ⟨added, hround, hone, hmissing⟩ := Except.exists_of_decide _ hrounds
  have hruns : Ends (Store.fillIn p (some 4) true (some 0)) ⟨e, m⟩
      (fun _ w' => (w'.model.parameter (.given p)).toOption.any (·.count .all = 3))
      fun _ => False := by decide +kernel
  obtain ⟨_, w', hfill, hcount⟩ := hruns.exists_ok
  obtain ⟨q', hq', hcount⟩ := Except.exists_of_decide _ hcount
  have hfresh : q.supports.Fresh added := by
    obtain ⟨x, rfl⟩ := List.length_eq_one_iff.1 hone
    exact ⟨List.pairwise_singleton _ _, hmissing⟩
  have hreaches := hall m e p 4 (some 0) w' q q' added label hr he (by decide) hfill hq hq'
    ⟨by simp [hthree], ⟨found, e', hgenerates, hround⟩, by simp [hone, hthree]⟩ hfresh
  omega

end Discretization
