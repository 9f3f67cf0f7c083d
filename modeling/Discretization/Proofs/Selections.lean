import Discretization.Proofs.Derivations
import Discretization.Proofs.Grids
import Discretization.Session

/-!
# Selecting Supports by Labels

A label selects the supports that carry a label it covers. A store answers some selectors without
looking at labels: all supports are selected by the one of every support, and by the one of visible
supports where none is known to be internal. That is the same selection, as every support carries a
label and internal ones are never overlooked. Supports of several parameters are selected one
parameter after the other and combined then, which selects among all combinations those whose every
value carries a covered label.

## Main definitions

* `SupportMap.carries`, `Model.carriesAll`: values with a label that a selector covers;
* `Parameter.Hides`: a parameter without internal supports has none;
* `Parameter.Selectable`: supports are in order, have labels, and internal ones are known of.

## Main results

* `selectable_of_requested`: the parameters of all models are selectable if supports are defined;
* `Parameter.Selectable.selected_eq`: the supports that a store selects;
* `Session.supportsOf_eq`: the combinations that a store selects.
-/

namespace Discretization

variable {α : Type} [Scalar α]

/-! ## Labels of values -/

namespace SupportMap

variable {m : SupportMap α} {label : Label} {x : α}

/-- Whether a value is stored with a label that the selector covers. -/
def carries (m : SupportMap α) (label : Label) (x : α) : Bool :=
  m.supports.any fun s => s.value == x && label.coversAny s.labels

/-- On increasing values, the labels of a value are those of its one support. -/
theorem carries_of_mem [LawfulScalar α] (h : Increasing m.values) {s : Support α}
    (hs : s ∈ m.supports) (hx : (s.value == x) = true) :
    m.carries label x = label.coversAny s.labels := by
  have hlabels := (labels?_eq_some_iff h).2 ⟨s, hs, hx, rfl⟩
  rw [Bool.eq_iff_iff, carries, List.any_eq_true]
  constructor
  · rintro ⟨s', hs', hboth⟩
    obtain ⟨hx', hcovers⟩ := Bool.and_eq_true_iff.1 hboth
    have hlabels' := (labels?_eq_some_iff h).2 ⟨s', hs', hx', rfl⟩
    rwa [Option.some.inj (hlabels.symm.trans hlabels')]
  · exact fun hcovers => ⟨s, hs, by rw [hx, hcovers]; rfl⟩

/-- A snapshot tells the labels of a value. -/
theorem coversAny_labelsAt [LawfulScalar α] (h : Increasing m.values) :
    label.coversAny (Snapshot.labelsAt m.supports x) = m.carries label x := by
  rw [Snapshot.labelsAt]
  cases hfind : m.supports.reverse.find? (·.value == x) with
  | none =>
    rw [List.find?_eq_none] at hfind
    refine (List.any_eq_false.2 fun s hs hboth => ?_).symm
    exact hfind s (List.mem_reverse.2 hs) (Bool.and_eq_true_iff.1 hboth).1
  | some s =>
    have hx := List.find?_some hfind
    exact (carries_of_mem h (List.mem_reverse.1 (List.mem_of_find?_eq_some hfind)) hx).symm

/-- The values of the supports that a label selects carry it. -/
theorem filter_carries [LawfulScalar α] (h : Increasing m.values) :
    m.values.filter (m.carries label) = (m.select label).map (·.value) := by
  rw [values, List.filter_map, select]
  congr 1
  refine List.filter_congr fun s hs => carries_of_mem h hs ?_
  exact h.defined _ (List.mem_map_of_mem hs)

/-- Where a label covers all labels that are stored, every value carries one that it covers. -/
theorem carries_of_covers (hlabelled : ∀ s ∈ m.supports, s.Labelled)
    (hcovers : ∀ y l, m.Stores y l → label.covers l = true) (hx : m.contains x = true) :
    m.carries label x = true := by
  obtain ⟨s, hs, hsx⟩ := List.any_eq_true.1 hx
  obtain ⟨l, hl⟩ := List.exists_mem_of_ne_nil _ (hlabelled s hs).nonempty
  refine List.any_eq_true.2 ⟨s, hs, Bool.and_eq_true_iff.2 ⟨hsx, ?_⟩⟩
  exact List.any_eq_true.2 ⟨l, hl, hcovers s.value l ⟨s, hs, rfl, hl⟩⟩

end SupportMap

/-! ## Internal supports -/

namespace Parameter

variable {π : Policy α} {q q' : Parameter α}

/-- A parameter that is not known to have internal supports has none. -/
def Hides (q : Parameter α) : Prop :=
  q.hasInternal = false → ∀ x l, q.supports.Stores x l → l.internal = false

theorem Hides.of_new (h : q.New) : q.Hides := by
  rintro - x l ⟨s, hs, -⟩
  rw [h.supports] at hs
  cases hs

theorem Hides.grown (h : q.Hides) (values : List α) (label : Label) :
    (q.grown values label).Hides := by
  intro hflag x l hl
  obtain ⟨hold, hnew⟩ := Bool.or_eq_false_iff.1 hflag
  rcases SupportMap.stores_of_addAll hl with hl | ⟨rfl, -⟩
  · exact h hold x l hl
  · exact hnew

theorem Hides.without (h : q.Hides) {selectors : List Label} {internal : Bool}
    (noted : q.Noted selectors internal) : (q.without selectors internal).Hides := by
  intro hflag x l hl
  have hkept : q.hasInternal = false → l.internal = false := fun hold =>
    h hold x l (SupportMap.stores_of_strip hl)
  rcases noted with ⟨-, rfl⟩ | ⟨-, rfl⟩
  · -- stripping ended early, and the flag is still that of all supports
    exact hkept hflag
  · rcases Bool.and_eq_false_iff.1 hflag with hold | hnone
    · exact hkept hold
    · obtain ⟨s, hs, -, hl⟩ := hl
      have hcovers := List.any_eq_false.1 hnone s hs
      exact Bool.eq_false_iff.2 fun hinternal => hcovers (List.any_eq_true.2 ⟨l, hl, hinternal⟩)

/-- Supports that replace all others have the label that they are given under. -/
theorem Hides.replaced (q : Parameter α) (values : List α) (label : Label) :
    (q.replaced values label).Hides := by
  intro hflag x l hl
  rcases SupportMap.stores_of_addAll hl with ⟨s, hs, -⟩ | ⟨rfl, -⟩
  · cases hs
  · exact hflag

theorem Growth.hides (h : q.Growth π q') (hd : q.Derivable) (hq : q.Hides) : q'.Hides := by
  cases h with
  | note equations => exact hq
  | add rounds storable allowed harmless => exact hq.grown _ _
  | withdraw info own noted => exact hq.without noted
  | displace rounds storable allowed info own noted => exact (hq.grown _ _).without noted
  | derive missing info derives rounds storable => exact hq.grown _ _
  | place rounds storable allowed none => exact .replaced q _ _
  | underivable h => exact absurd hd h

theorem Event.hides (h : q.Event π q') (hd : q.Derivable) (hq : q.Hides) : q'.Hides := by
  cases h with
  | grow h => exact h.hides hd hq
  | strip noted => exact hq.without noted
  | clear =>
    rintro - x l ⟨s, hs, -⟩
    cases hs
  | replace rounds storable allowed => exact .replaced q _ _
  | redefine method info missing allowed => exact hq

theorem hides_of_requested {m : Model α} (h : Requested m) :
    ∀ p q, m.parameter (.given p) = .ok q → q.Hides := by
  intro p q hq
  have hboth := h.event_induction (P := fun q => q.Derivable ∧ q.Hides)
    (fun q hnew => ⟨.of_new hnew, .of_new hnew⟩)
    (fun _ _ hP hevent => ⟨hevent.derivable hP.1, hevent.hides hP.1 hP.2⟩) p q hq
  exact hboth.2

/-- The supports are in order, each has a label, and internal ones are known of. -/
structure Selectable (q : Parameter α) : Prop where
  ordered : Increasing q.supports.values
  labelled : ∀ s ∈ q.supports.supports, s.Labelled
  hides : q.Hides

namespace Selectable

variable [LawfulScalar α] {label : Label}

omit [LawfulScalar α] in
theorem carries_all (h : q.Selectable) {x : α} (hx : q.supports.contains x = true) :
    q.supports.carries .all x = true :=
  SupportMap.carries_of_covers h.labelled (fun _ _ _ => rfl) hx

/-- A store selects the values that carry a label which the selector covers, also where it does not
look at labels. -/
theorem selected_eq (h : q.Selectable) (label : Label) :
    q.selected label = q.supports.values.filter (q.supports.carries label) := by
  rw [selected]
  split
  · rename_i htakes
    refine (List.filter_eq_self.2 fun x hx => ?_).symm
    have hcontains : q.supports.contains x = true :=
      SupportMap.contains_iff.2 ⟨x, hx, h.ordered.defined x hx⟩
    rw [takesAll, Bool.or_eq_true, Bool.and_eq_true] at htakes
    -- every support is asked for, or none is internal and so all are visible
    rcases htakes with hall | ⟨hvisible, hnone⟩
    · rw [of_decide_eq_true hall]
      exact h.carries_all hcontains
    · rw [of_decide_eq_true hvisible]
      refine SupportMap.carries_of_covers h.labelled (fun y l hl => ?_) hcontains
      have hinternal := h.hides (by simpa using hnone) y l hl
      change (!l.internal) = true
      rw [hinternal, Bool.not_false]
  · exact (SupportMap.filter_carries h.ordered).symm

end Selectable

end Parameter

/-! ## Combinations -/

/-- Selecting items and combining them then selects combinations. -/
theorem filter_combinations {β γ : Type} (f : β → List γ) (P : β → γ → Bool) (xs : List β) :
    (combinations (xs.map f)).filter (fun ys => (xs.zip ys).all fun (x, y) => P x y) =
      combinations (xs.map fun x => (f x).filter (P x)) := by
  induction xs with
  | nil => rfl
  | cons x rest ih =>
    rw [List.map_cons, List.map_cons, combinations, combinations, ← ih]
    -- one item of the first list after the other
    induction f x with
    | nil => rfl
    | cons y ys ih' =>
      rw [List.flatMap_cons, List.filter_append, ih', List.filter_map, List.filter_cons]
      cases hy : P x y <;> simp [hy, Function.comp_def]

namespace Model

variable {m : Model α} {label : Label} {p : Ref} {q : Parameter α} {parameters : List Ref}

/-- Whether a value of a parameter carries a label that the selector covers. -/
def carries (m : Model α) (label : Label) (p : Ref) (x : α) : Bool :=
  match m.parameter (.given p) with
  | .ok q => q.supports.carries label x
  | .error _ => false

theorem carries_eq (hq : m.parameter (.given p) = .ok q) :
    m.carries label p = q.supports.carries label := by
  funext x
  rw [carries, hq]

/-- Whether every value of a key carries a label that the selector covers. -/
def carriesAll (m : Model α) (label : Label) (parameters : List Ref) (key : List α) : Bool :=
  (parameters.zip key).all fun (p, x) => m.carries label p x

theorem carriesAll_cons {x : α} {key : List α} : m.carriesAll label (p :: parameters) (x :: key) =
    (m.carries label p x && m.carriesAll label parameters key) :=
  rfl

/-- All parameters are selectable. -/
def Selectable (m : Model α) : Prop :=
  ∀ p q, m.parameter (.given p) = .ok q → q.Selectable

/-- The keys of a grid whose values carry covered labels. -/
theorem filter_grid (m : Model α) (label : Label) (parameters : List Ref) :
    (m.grid parameters).filter (m.carriesAll label parameters) =
      combinations (parameters.map fun p => (m.axis p).filter (m.carries label p)) :=
  filter_combinations m.axis (m.carries label) parameters

end Model

/-- In all models that come about by requests, supports can be selected if they are defined. -/
theorem selectable_of_requested [LawfulScalar α] {m : Model α} (h : Requested m)
    (hd : m.Defined) : m.Selectable := by
  intro p q hq
  have htidy := Parameter.tidy_of_requested h p q hq
  exact ⟨htidy.ordered (hd p q hq), htidy.labelled, Parameter.hides_of_requested h p q hq⟩

/-! ## Supports of several parameters -/

/-- Columns of equal height side by side. -/
def Tensor.ofColumns (height : Nat) (columns : List (List α)) : Tensor α :=
  .matrix columns.length ((List.range height).map fun i => columns.map (·.getD i 0))

/-- A look-up that is known to succeed in the model at its number. -/
theorem Session.ends_query_of {m : Model α} {β : Type} {s : Session α} {id : Nat}
    {f : Model α → Except (Error α) β} {b : β} {ok : β → Session α → Prop}
    {fail : Session α → Prop} (hs : s.models[id]? = some m) (hb : f m = .ok b) :
    Ends (query id f) s ok fail ↔ ok b s := by
  unfold query model check
  rw [ends_bind, ends_bind, ends_get, hs]
  dsimp only
  rw [ends_pure, hb]
  exact ends_pure b

/-- The supports of several parameters that a store selects are the keys of their grid whose values
carry covered labels. -/
theorem Session.supportsOf_eq [LawfulScalar α] {m : Model α} (h : m.Selectable) {s : Session α}
    (hs : s.models[m.id]? = some m) {parameters : List Ref} (hne : parameters ≠ [])
    (hlive : ∀ p ∈ parameters, ∃ q, m.parameter (.given p) = .ok q) (label : Label) :
    supportsOf parameters label true s = .ok (.ofColumns parameters.length
      ((m.grid parameters).filter (m.carriesAll label parameters))) s := by
  -- it also succeeds, as all parameters are live
  have hends : Ends (supportsOf parameters label true) s (fun tensor s' => s' = s ∧
      tensor = .ofColumns parameters.length
        ((m.grid parameters).filter (m.carriesAll label parameters))) fun _ => False := by
    unfold supportsOf
    rw [ends_bind]
    refine (Ends.mapM (fun s' => s' = s)
      (R := fun p row => row.2 = (m.axis p).filter (m.carries label p)) rfl ?_).mono ?_ fun _ h => h
    · rintro p hp s' rfl
      obtain ⟨q, hq⟩ := hlive p hp
      rw [← (Model.parameter_eq_ok.1 hq).1] at hs
      rw [ends_bind, ends_query_of hs hq, ends_pure, Model.axis_eq hq, Model.carries_eq hq]
      exact ⟨rfl, (h p q hq).selected_eq label⟩
    · rintro rows s' ⟨rfl, hrows⟩
      have hlength := hrows.length_eq
      have hsome : rows.isEmpty = false := by
        cases rows with
        | nil => exact absurd (List.length_eq_zero_iff.1 hlength) hne
        | cons row rest => rfl
      -- the rows come in the order of the parameters
      have hselected : rows.map (·.2) =
          parameters.map fun p => (m.axis p).filter (m.carries label p) :=
        eq_map_of_forall₂ (List.forall₂_map_right_iff.2 hrows)
      rw [hsome]
      refine (ends_pure _).2 ⟨rfl, ?_⟩
      rw [Model.filter_grid, ← hselected, hlength, ← List.length_map (·.2)]
      rfl
  obtain ⟨tensor, s', hrun, rfl, rfl⟩ := hends.exists_ok
  exact hrun

end Discretization
