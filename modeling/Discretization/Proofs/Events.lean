import Discretization.Proofs.Steps

/-!
# Events of a Parameter

The steps of a parameter say how its supports change, but not what an operation does as a whole:
between two steps of one operation derived supports can be out of date although they count as in
place. An event is what a whole operation does to a parameter, with its flags. Most requests only
make a parameter grow: values are added, and derived supports are put in place or taken away. The
other events take supports away that were stored on purpose or replace the way in which supports are
derived, and only few requests cause these. A policy restricts what is put into parameters, and with
it the events.

## Main definitions

* `Policy`: what may be put into parameters;
* `Parameter.Takes`: what an addition makes of a parameter, in each of the ways it can go;
* `Parameter.Growth`: an event that takes away derived supports only;
* `Parameter.Event`: any event;
* `Workspace.Follows`: parameters go on by events of a kind, and new ones come from new parameters.

## Main results

* `Store.ends_add_takes`: all that an addition can do, whether it succeeds or fails;
* `Store.ends_add_event`, `Store.ends_set_event` and so on: operations on the supports of a
  parameter are events, as far as a policy allows what is put in;
* `sustains_follows`, `governs_follows`: parameters go by events, whatever is asked for;
* `Requested.event_induction`: what new parameters have and events keep, parameters always have.
-/

namespace Discretization

open Relation (ReflTransGen)

/-- What may be put into the parameters over a domain. -/
structure Policy (α : Type) where
  /-- Rounded values that may be stored under a label. -/
  values : Domain α → List α → Label → Prop
  /-- Ways in which supports with some significant digits may be derived. -/
  infos : Domain α → (digits : Int) → GenerativeInfo α → Prop

/-- Anything may be put into parameters. -/
def Policy.free {α : Type} : Policy α where
  values _ _ _ := True
  infos _ _ _ := True

variable {α : Type} [Scalar α] {π : Policy α}

namespace Parameter

/-- Derived supports that are in place have a label of their own. -/
def Derivable (q : Parameter α) : Prop :=
  q.hasGenerative = true → ∃ basis label, q.info = .uniform basis label ∧ label.isSelector = false

theorem Derivable.of_new {q : Parameter α} (h : q.New) : q.Derivable := by
  intro hset
  rw [h.hasGenerative] at hset
  cases hset

/-- The parameter with values added under a label. -/
def grown (q : Parameter α) (values : List α) (label : Label) : Parameter α :=
  { q with
    supports := (q.supports.addAll values label).2, hasInternal := q.hasInternal || label.internal }

/-- The parameter with labels stripped, and with the flag of internal supports as given. -/
def without (q : Parameter α) (selectors : List Label) (internal : Bool) : Parameter α :=
  { q with
    supports := (q.supports.strip selectors).1, hasGenerative := false, hasInternal := internal }

/-- The flag of internal supports after labels were stripped. Where that ended early, the flag was
not brought up to date. -/
def Noted (q : Parameter α) (selectors : List Label) (internal : Bool) : Prop :=
  (q.supports.strip selectors).2.isSome = true ∧ internal = q.hasInternal ∨
    (q.supports.strip selectors).2 = none ∧
      internal = (q.hasInternal && (q.supports.strip selectors).1.hasInternal)

/-- Values that can be added under a label, after rounding. -/
structure Admitted (q : Parameter α) (values : List α) (argument : Argument Label) (checked : Bool)
    (label : Label) (rounded : List α) : Prop where
  given : argument = .given label
  storable : label.isSelector = false
  rounds : roundList q.digits values = .ok rounded
  inside : checked = true → q.checkBounds rounded = .ok ()

/-- What an addition makes of a parameter. If one of the values is new, the equations are dropped,
and then derived supports that are in place are taken away. -/
inductive Takes (q : Parameter α) (rounded : List α) (label : Label) :
    (anyNew : Bool) → Parameter α → Prop where
  /-- All values are there. -/
  | known (old : (q.supports.addAll rounded label).1 = false) :
      q.Takes rounded label false (q.grown rounded label)
  /-- Some value is new, and no derived supports are in place. -/
  | beside (new : (q.supports.addAll rounded label).1 = true) (missing : q.hasGenerative = false) :
      q.Takes rounded label true { q.grown rounded label with hasEquations := false }
  /-- Some value is new and displaces derived supports. -/
  | displacing {basis : List α} {derived : Label} {internal : Bool}
      (new : (q.supports.addAll rounded label).1 = true) (placed : q.hasGenerative = true)
      (info : q.info = .uniform basis derived) (own : derived.isSelector = false)
      (done : ((q.supports.addAll rounded label).2.strip [derived]).2 = none)
      (noted : (q.grown rounded label).Noted [derived] internal) :
      q.Takes rounded label true
        { (q.grown rounded label).without [derived] internal with hasEquations := false }

/-- What an addition leaves of a parameter where it fails after the values are added: stripping the
label of derived supports ended early. -/
inductive Chokes (q : Parameter α) (rounded : List α) (label : Label) : Parameter α → Prop where
  | displacing {basis : List α} {derived : Label} {internal : Bool}
      (info : q.info = .uniform basis derived) (own : derived.isSelector = false)
      (early : ((q.supports.addAll rounded label).2.strip [derived]).2.isSome = true)
      (noted : (q.grown rounded label).Noted [derived] internal) :
      q.Chokes rounded label
        { (q.grown rounded label).without [derived] internal with hasEquations := false }

/-- The parameter with the values stored under a label in place of all others. -/
def replaced (q : Parameter α) (values : List α) (label : Label) : Parameter α :=
  { q with
    supports := (SupportMap.empty.addAll values label).2, hasGenerative := false,
    hasInternal := label.internal }

/-- An event that takes away no supports but derived ones, where values are added as the policy
allows. -/
inductive Growth (π : Policy α) (q : Parameter α) : Parameter α → Prop where
  /-- Equations are stored or dropped. -/
  | note (equations : Bool) : q.Growth π { q with hasEquations := equations }
  /-- Values are added, and if derived supports are in place, none of them is new. -/
  | add {values rounded : List α} {label : Label} (rounds : roundList q.digits values = .ok rounded)
      (storable : label.isSelector = false) (allowed : π.values q.domain rounded label)
      (harmless : q.hasGenerative = false ∨ (q.supports.addAll rounded label).1 = false) :
      q.Growth π (q.grown rounded label)
  /-- Derived supports are taken away. -/
  | withdraw {basis : List α} {derived : Label} {internal : Bool}
      (info : q.info = .uniform basis derived) (own : derived.isSelector = false)
      (noted : q.Noted [derived] internal) : q.Growth π (q.without [derived] internal)
  /-- Values are added, and with them derived supports are taken away. -/
  | displace {values rounded basis : List α} {label derived : Label} {internal : Bool}
      (rounds : roundList q.digits values = .ok rounded) (storable : label.isSelector = false)
      (allowed : π.values q.domain rounded label)
      (info : q.info = .uniform basis derived) (own : derived.isSelector = false)
      (noted : (q.grown rounded label).Noted [derived] internal) :
      q.Growth π ((q.grown rounded label).without [derived] internal)
  /-- Derived supports are put in place. -/
  | derive {basis derived rounded : List α} {label : Label} {owner : String}
      (missing : q.hasGenerative = false) (info : q.info = .uniform basis label)
      (derives : q.info.makeSupports (q.supports.baseValues label) owner = .ok derived)
      (rounds : roundList q.digits derived = .ok rounded) (storable : label.isSelector = false) :
      q.Growth π { q.grown rounded label with hasGenerative := true }
  /-- A parameter without supports gets the given ones. -/
  | place {values rounded : List α} {label : Label}
      (rounds : roundList q.digits values = .ok rounded)
      (storable : label.isSelector = false) (allowed : π.values q.domain rounded label)
      (none : q.supports.supports = []) : q.Growth π (q.replaced rounded label)
  /-- Nothing is said of parameters that do not come about. -/
  | underivable (h : ¬ q.Derivable) (q' : Parameter α) : q.Growth π q'

/-- What an operation does to a parameter, where it puts in what the policy allows. -/
inductive Event (π : Policy α) (q : Parameter α) : Parameter α → Prop where
  /-- At most derived supports are taken away. -/
  | grow {q' : Parameter α} (h : q.Growth π q') : q.Event π q'
  /-- Labels are stripped. -/
  | strip {selectors : List Label} {internal : Bool} (noted : q.Noted selectors internal) :
      q.Event π (q.without selectors internal)
  /-- All supports are taken away. -/
  | clear : q.Event π { q with supports := .empty, hasGenerative := false, hasInternal := false }
  /-- All supports are replaced. -/
  | replace {values rounded : List α} {label : Label}
      (rounds : roundList q.digits values = .ok rounded) (storable : label.isSelector = false)
      (allowed : π.values q.domain rounded label) : q.Event π (q.replaced rounded label)
  /-- The method or the way in which supports are derived is replaced. -/
  | redefine (method : DerivativeMethod) (info : GenerativeInfo α)
      (missing : q.hasGenerative = false) (allowed : π.infos q.domain q.digits info) :
      q.Event π { q with method, info }

variable {q q' : Parameter α}

theorem steps_grown {values rounded : List α} {label : Label}
    (hr : roundList q.digits values = .ok rounded) (hl : label.isSelector = false) :
    q.Steps (q.grown rounded label) :=
  .tail (.single (.add hr hl)) (.note _ _)

theorem steps_without (q : Parameter α) (selectors : List Label) (internal : Bool) :
    q.Steps (q.without selectors internal) :=
  .tail (.single (.strip selectors)) (.note _ _)

theorem steps_replaced {values rounded : List α} {label : Label}
    (hr : roundList q.digits values = .ok rounded) (hl : label.isSelector = false) :
    q.Steps (q.replaced rounded label) :=
  .tail (.tail (.single .clear) (.add hr hl)) (.note _ _)

/-- Growth goes by steps. -/
theorem Growth.steps (h : q.Growth π q') (hd : q.Derivable) : q.Steps q' := by
  cases h with
  | note equations => exact .single (.note _ equations)
  | add hr hl _ _ => exact steps_grown hr hl
  | withdraw _ _ _ => exact steps_without q _ _
  | displace hr hl _ _ _ _ => exact (steps_grown hr hl).trans (steps_without _ _ _)
  | derive hmissing hinfo hderives hr hl =>
    exact .tail (.single (.derive hmissing hinfo hderives hr hl)) (.note _ _)
  | place hr hl _ _ => exact steps_replaced hr hl
  | underivable hnot _ => exact absurd hd hnot

/-- An event goes by steps, so what steps keep is kept. -/
theorem Event.steps (h : q.Event π q') (hd : q.Derivable) : q.Steps q' := by
  cases h with
  | grow h => exact h.steps hd
  | strip _ => exact steps_without q _ _
  | clear => exact .tail (.single .clear) (.note _ _)
  | replace hr hl _ => exact steps_replaced hr hl
  | redefine method info hmissing _ => exact .single (.redefine method info hmissing)

/-- Where the added values leave the supports in order, stripping goes through to the end. -/
theorem not_chokes [LawfulScalar α] {rounded : List α} {label : Label}
    (h : Increasing (q.supports.addAll rounded label).2.values) : ¬ q.Chokes rounded label q' := by
  rintro ⟨-, -, hearly, -⟩
  rw [SupportMap.strip_eq h] at hearly
  cases hearly

/-- The way in which supports are derived stays one that the policy allows. -/
theorem Event.infos (h : q.Event π q') (hd : q.Derivable)
    (hinfo : π.infos q.domain q.digits q.info) : π.infos q'.domain q'.digits q'.info := by
  cases h with
  | grow hgrowth =>
    cases hgrowth with
    | underivable hnot _ => exact absurd hd hnot
    | _ => exact hinfo
  | redefine method info _ allowed => exact allowed
  | _ => exact hinfo

end Parameter

namespace Workspace

variable {R R' : Parameter α → Parameter α → Prop} {w w' : Workspace α} {p : Ref}
  {q q' : Parameter α}

/-- In a workspace, the parameter at a reference comes from the given one by given changes. -/
def ComesFrom (R : Parameter α → Parameter α → Prop) (p : Ref) (q : Parameter α)
    (w : Workspace α) : Prop :=
  ∃ q', w.model.parameter (.given p) = .ok q' ∧ ReflTransGen R q q'

/-- Every parameter goes on by the given changes, and parameters that were not there come by such
changes from new ones that the policy allows. -/
structure Follows (π : Policy α) (R : Parameter α → Parameter α → Prop) (w w' : Workspace α) :
    Prop where
  kept : ∀ p q, w.model.parameter (.given p) = .ok q → w'.ComesFrom R p q
  added : ∀ p q', w'.model.parameter (.given p) = .ok q' →
    (∀ q, w.model.parameter (.given p) ≠ .ok q) →
      ∃ q, q.New ∧ π.infos q.domain q.digits q.info ∧ ReflTransGen R q q'

instance : IsPreorder (Workspace α) (Follows π R) where
  refl _ := ⟨fun _ q hq => ⟨q, hq, .refl⟩, fun _ q hq hnone => absurd hq (hnone q)⟩
  trans w w' w'' h h' := by
    refine ⟨fun p q hq => ?_, fun p q'' hq'' hnone => ?_⟩
    · obtain ⟨q', hq', hs⟩ := h.kept p q hq
      obtain ⟨q'', hq'', hs'⟩ := h'.kept p q' hq'
      exact ⟨q'', hq'', hs.trans hs'⟩
    · by_cases hlive : ∃ q', w'.model.parameter (.given p) = .ok q'
      · obtain ⟨q', hq'⟩ := hlive
        obtain ⟨q, hnew, hinfo, hs⟩ := h.added p q' hq' hnone
        obtain ⟨q₁, hq₁, hs'⟩ := h'.kept p q' hq'
        rw [hq''] at hq₁
        cases hq₁
        exact ⟨q, hnew, hinfo, hs.trans hs'⟩
      · exact h'.added p q'' hq'' fun q' hq' => hlive ⟨q', hq'⟩

theorem Follows.mono (h : Follows π R w w') (himp : ∀ q q', R q q' → R' q q') :
    Follows π R' w w' where
  kept p q hq := by
    obtain ⟨q', hq', hs⟩ := h.kept p q hq
    exact ⟨q', hq', ReflTransGen.mono himp _ _ hs⟩
  added p q' hq' hnone := by
    obtain ⟨q, hnew, hinfo, hs⟩ := h.added p q' hq' hnone
    exact ⟨q, hnew, hinfo, ReflTransGen.mono himp _ _ hs⟩

/-- Growth is an event. -/
theorem Follows.event (h : Follows π (Parameter.Growth π) w w') :
    Follows π (Parameter.Event π) w w' :=
  h.mono fun _ _ => .grow

/-- A change around a parameter that takes it through given changes. -/
theorem Follows.of_alters (ht : w.model.Alters p w'.model)
    (hq : w.model.parameter (.given p) = .ok q) (hq' : w'.model.parameter (.given p) = .ok q')
    (hs : ReflTransGen R q q') : Follows π R w w' where
  kept p₁ q₁ hq₁ := by
    by_cases hp : p₁ = p
    · subst hp
      rw [hq] at hq₁
      cases hq₁
      exact ⟨q', hq', hs⟩
    · exact ⟨q₁, (ht.parameter_of_ne (Model.index_ne hq hq₁ hp)).2 hq₁, .refl⟩
  added p₁ q₁ hq₁ hnone := by
    obtain ⟨q₀, hq₀⟩ := ht.objects.symm.parameter hq₁
    exact absurd hq₀ (hnone q₀)

/-- Nothing happened to the parameters. -/
theorem Follows.of_parameters (hid : w'.model.id = w.model.id)
    (h : w'.model.parameters = w.model.parameters) : Follows π R w w' := by
  have hsame : ∀ p q, w'.model.parameter (.given p) = .ok q ↔
      w.model.parameter (.given p) = .ok q :=
    fun p q => by rw [Model.parameter_eq_ok, Model.parameter_eq_ok, hid, h]
  exact ⟨fun p q hq => ⟨q, (hsame p q).2 hq, .refl⟩,
    fun p q hq hnone => absurd ((hsame p q).1 hq) (hnone q)⟩

/-- A new parameter comes after those before. -/
theorem Follows.push {q₀ : Parameter α} (hnew : q₀.New)
    (hinfo : π.infos q₀.domain q₀.digits q₀.info) :
    Follows π R w { w with model := (w.model.pushParameter q₀).2 } := by
  refine ⟨fun p q hq => ?_, fun p q hq hnone => ?_⟩
  · obtain ⟨hid, hkind, hget⟩ := Model.parameter_eq_ok.1 hq
    have hget' := Table.get?_push_of_some hget q₀
    exact ⟨q, Model.parameter_eq_ok.2 ⟨hid, hkind, hget'⟩, .refl⟩
  · obtain ⟨hid, hkind, hget⟩ := Model.parameter_eq_ok.1 hq
    rcases Table.get?_push hget with hget | ⟨-, rfl⟩
    · exact (hnone q (Model.parameter_eq_ok.2 ⟨hid, hkind, hget⟩)).elim
    · exact ⟨q, hnew, hinfo, .refl⟩

/-- What new parameters that the policy allows have and changes keep, all parameters have after they
had it before. -/
theorem Follows.keeps {P : Parameter α → Prop} (h : Follows π R w w')
    (hnew : ∀ q, q.New → π.infos q.domain q.digits q.info → P q)
    (hkeeps : ∀ q q', P q → R q q' → P q')
    (hP : ∀ p q, w.model.parameter (.given p) = .ok q → P q) :
    ∀ p q, w'.model.parameter (.given p) = .ok q → P q := by
  -- what one step keeps, a run keeps
  have along : ∀ {q q' : Parameter α}, ReflTransGen R q q' → P q → P q' := by
    intro q q' hs hq
    induction hs with
    | refl => exact hq
    | tail _ hlast ih => exact hkeeps _ _ ih hlast
  intro p q' hq'
  -- a parameter that was not there is new, and was allowed with what it has
  by_cases hlive : ∃ q, w.model.parameter (.given p) = .ok q
  · obtain ⟨q, hq⟩ := hlive
    obtain ⟨q₁, hq₁, hs⟩ := h.kept p q hq
    rw [hq'] at hq₁
    cases hq₁
    exact along hs (hP p q hq)
  · obtain ⟨q, hq, hinfo, hs⟩ := h.added p q' hq' fun q hq => hlive ⟨q, hq⟩
    exact along hs (hnew q hq hinfo)

end Workspace

/-! ## Operations on supports -/

namespace Store

open Operation Workspace

variable {R : Parameter α → Parameter α → Prop} {w w' : Workspace α} {p : Ref}
  {q : Parameter α}

/-- An operation that touches one parameter, if it says what becomes of that parameter, whether it
succeeds or fails. -/
theorem ends_follows {β : Type} {op : Operation α β} (ht : Moves (Touches p) op)
    (hq : w.model.parameter (.given p) = .ok q)
    (h : Ends op w (fun _ w' => w'.ComesFrom R p q) fun w' => w'.ComesFrom R p q) :
    Ends op w (fun _ w' => Follows π R w w') fun w' => Follows π R w w' := by
  refine ((ht.ends w).and h).mono ?_ ?_
  · rintro _ w' ⟨ht', q', hq', hs⟩
    exact .of_alters ht'.model.toAlters hq hq' hs
  · rintro w' ⟨ht', q', hq', hs⟩
    exact .of_alters ht'.model.toAlters hq hq' hs

theorem follows_of_touches {β : Type} {op : Operation α β} (ht : Moves (Touches p) op)
    (hnone : ∀ w : Workspace α, (∀ q, w.model.parameter (.given p) ≠ .ok q) →
      Ends op w (fun _ w' => w' = w) fun w' => w' = w)
    (h : ∀ (w : Workspace α) q, w.model.parameter (.given p) = .ok q →
      Ends op w (fun _ w' => w'.ComesFrom R p q) fun w' => w'.ComesFrom R p q) :
    Moves (Follows π R) op := by
  refine ⟨fun w => ?_⟩
  by_cases hlive : ∃ q, w.model.parameter (.given p) = .ok q
  · obtain ⟨q, hq⟩ := hlive
    exact ends_follows ht hq (h w q hq)
  · refine (hnone w fun q hq => hlive ⟨q, hq⟩).mono ?_ ?_
    · rintro _ w' rfl
      exact refl_of (Follows π R) w'
    · rintro w' rfl
      exact refl_of (Follows π R) w'

omit [Scalar α] in
/-- Where the parameter is not live, an operation that asks for it first changes nothing. -/
theorem ends_query_bind_of_missing {β : Type} {f : Parameter α → Operation α β}
    (hnone : ∀ q, w.model.parameter (.given p) ≠ .ok q) :
    Ends (query (·.parameter p) >>= f) w (fun _ w' => w' = w) fun w' => w' = w := by
  rw [ends_bind, ends_query]
  exact ⟨fun q hq => absurd hq (hnone q), fun _ _ => rfl⟩

/-- Derived supports in place are stripped; that fails just if it ends early. -/
theorem ends_resetGenerative_placed (hq : w.model.parameter (.given p) = .ok q)
    (hplaced : q.hasGenerative = true) {basis : List α} {derived : Label}
    (hinfo : q.info = .uniform basis derived) (hown : derived.isSelector = false) :
    Ends (resetGenerative p) w
      (fun _ w' => ∃ internal,
        ((q.supports.strip [derived]).2 = none ∧ q.Noted [derived] internal) ∧
        w'.model.parameter (.given p) =
          .ok { q.without [derived] internal with hasEquations := false })
      fun w' => (q.supports.strip [derived]).2.isSome = true ∧
        ∃ internal, q.Noted [derived] internal ∧ w'.model.parameter (.given p) =
          .ok { q.without [derived] internal with hasEquations := false } := by
  have hall : derived ≠ .all := by rintro rfl; cases hown
  have hlabel : q.info.label = .ok derived := by rw [hinfo]; rfl
  unfold resetGenerative
  rw [ends_bind, ends_query_of hq, if_pos hplaced, ends_bind, ends_check_of hlabel]
  refine ends_delete hall (fun e he => absurd (hq.symm.trans he) nofun) fun q₀ w₁ hq₀ hw₁ => ?_
  obtain rfl : q = q₀ := Except.ok.inj (hq.symm.trans hq₀)
  refine ⟨fun e he => absurd (hlabel.symm.trans he) nofun,
    fun derived' hd supports failed hstrip => ?_⟩
  obtain rfl : derived = derived' := Except.ok.inj (hlabel.symm.trans hd)
  -- the label is stripped once, although it is both given and that of derived supports
  obtain ⟨rfl, rfl⟩ : (q.supports.strip [derived]).1 = supports ∧
      (q.supports.strip [derived]).2 = failed := by
    rw [selectors, bne_self_eq_false, Bool.and_false, if_neg Bool.false_ne_true] at hstrip
    rw [hstrip]
    exact ⟨rfl, rfl⟩
  have hq₂ := Model.parameter_modifyParameter hw₁.parameter fun q₁ =>
    { q₁ with supports := (q.supports.strip [derived]).1, hasGenerative := false }
  have hq₃ := Model.parameter_modifyParameter hq₂ fun q₁ =>
    { q₁ with hasInternal := q₁.hasInternal && (q.supports.strip [derived]).1.hasInternal }
  exact ⟨fun hfailed => ⟨hfailed, q.hasInternal, .inl ⟨hfailed, rfl⟩, hq₂⟩,
    fun hdone => ⟨_, ⟨hdone, .inr ⟨hdone, rfl⟩⟩, (Model.parameter_markStaleIfUsed _).trans hq₃⟩⟩

/-- An operation that is growth as long as derived supports have a label of their own: of other
parameters nothing is said. -/
theorem ends_of_derivable {β : Type} {op : Operation α β} (ht : Moves (Touches p) op)
    (hq : w.model.parameter (.given p) = .ok q)
    (h : q.Derivable → Ends op w
      (fun _ w' => w'.ComesFrom (Parameter.Growth π) p q)
      fun w' => w'.ComesFrom (Parameter.Growth π) p q) :
    Ends op w
      (fun _ w' => w'.ComesFrom (Parameter.Growth π) p q)
      fun w' => w'.ComesFrom (Parameter.Growth π) p q := by
  by_cases hd : q.Derivable
  · exact h hd
  · have any : ∀ w' : Workspace α, w.Touches p w' → w'.ComesFrom (Parameter.Growth π) p q := by
      intro w' ht'
      obtain ⟨q', hq', -⟩ := ht'.model.parameter hq
      exact ⟨q', hq', .single (.underivable hd q')⟩
    exact (ht.ends w).mono (fun _ _ => any _) any

/-- All that an addition can do to a parameter whose derived supports have a label of their own. It
fails before it changes anything, because the values cannot be added, or while it takes derived
supports away. -/
theorem ends_add_takes (hq : w.model.parameter (.given p) = .ok q) (hd : q.Derivable)
    {values : List α} {argument : Argument Label} {checked : Bool} :
    Ends (add p values argument checked) w
      (fun anyNew w' => ∃ label rounded q', q.Admitted values argument checked label rounded ∧
        q.Takes rounded label anyNew q' ∧ w'.model.parameter (.given p) = .ok q')
      fun w' => (w' = w ∧ ∀ label rounded, ¬ q.Admitted values argument checked label rounded) ∨
        ∃ label rounded q', q.Admitted values argument checked label rounded ∧
          q.Chokes rounded label q' ∧ w'.model.parameter (.given p) = .ok q' := by
  refine ends_add_by (fun hfails => .inl ⟨rfl, fun label rounded h =>
    hfails q label rounded hq h.given h.storable h.rounds h.inside⟩)
    fun q₀ label rounded hq₀ hgiven hstorable hr hinside => ?_
  obtain rfl : q = q₀ := Except.ok.inj (hq.symm.trans hq₀)
  have hadmitted : q.Admitted values argument checked label rounded :=
    ⟨hgiven, hstorable, hr, hinside⟩
  refine ⟨fun hold => ?_, fun hnew w₂ hcleared => ?_⟩
  · exact ⟨label, rounded, _, hadmitted, .known hold, Model.parameter_modifyParameter hq _⟩
  -- only derived supports in place make the addition take anything away
  cases hgen : q.hasGenerative with
  | false =>
    refine ends_resetGenerative_of_missing hcleared.parameter hgen
      ⟨label, rounded, _, hadmitted, .beside hnew hgen, ?_⟩
    exact (Model.parameter_markStaleIfUsed _).trans hcleared.parameter
  | true =>
    obtain ⟨basis, derived, hinfo, hown⟩ := hd hgen
    refine (ends_resetGenerative_placed hcleared.parameter hgen hinfo hown).mono ?_ ?_
    · rintro _ w₃ ⟨internal, ⟨hdone, hnoted⟩, hq₃⟩
      exact ⟨label, rounded, _, hadmitted, .displacing hnew hgen hinfo hown hdone hnoted,
        (Model.parameter_markStaleIfUsed _).trans hq₃⟩
    · rintro w₃ ⟨hearly, internal, hnoted, hq₃⟩
      exact .inr ⟨label, rounded, _, hadmitted, .displacing hinfo hown hearly hnoted, hq₃⟩

/-- Adding values that the policy allows makes a parameter grow: they are added, and if one of them
is new, derived supports in place are taken away. -/
theorem ends_add_event (hq : w.model.parameter (.given p) = .ok q) {values : List α}
    {label : Argument Label} {checked : Bool}
    (hallowed : ∀ l rounded, q.Admitted values label checked l rounded →
      π.values q.domain rounded l) :
    Ends (add p values label checked) w
      (fun _ w' => w'.ComesFrom (Parameter.Growth π) p q)
      fun w' => w'.ComesFrom (Parameter.Growth π) p q := by
  refine ends_of_derivable (moves_add p values label checked) hq fun hd => ?_
  refine (ends_add_takes hq hd).mono ?_ ?_
  · rintro anyNew w' ⟨l, rounded, q', hadmitted, htakes, hq'⟩
    have hl := hallowed l rounded hadmitted
    have hstorable := hadmitted.storable
    refine ⟨q', hq', ?_⟩
    -- the flag for equations goes down in a step of its own, after the one that may take supports
    -- away
    cases htakes with
    | known old => exact .single (.add hadmitted.rounds hstorable hl (.inr old))
    | beside new missing =>
      exact .tail (.single (.add hadmitted.rounds hstorable hl (.inl missing))) (.note false)
    | displacing new placed info own done noted =>
      exact .tail (.single (.displace hadmitted.rounds hstorable hl info own noted)) (.note false)
  · rintro w' (⟨rfl, -⟩ | ⟨l, rounded, q', hadmitted, ⟨info, own, -, noted⟩, hq'⟩)
    · exact ⟨q, hq, .refl⟩
    · have hl := hallowed l rounded hadmitted
      exact ⟨_, hq', .tail
        (.single (.displace hadmitted.rounds hadmitted.storable hl info own noted)) (.note false)⟩

theorem ends_add_follows (hq : w.model.parameter (.given p) = .ok q) {values : List α}
    {label : Argument Label} {checked : Bool}
    (hallowed : ∀ l rounded, q.Admitted values label checked l rounded →
      π.values q.domain rounded l) :
    Ends (add p values label checked) w (fun _ w' => Follows π (Parameter.Growth π) w w')
      fun w' => Follows π (Parameter.Growth π) w w' :=
  ends_follows (moves_add p values label checked) hq (ends_add_event hq hallowed)

/-- Adding values makes a parameter grow. -/
theorem follows_add {values : List α} {label : Argument Label} {checked : Bool} (p : Ref)
    (hallowed : ∀ (q : Parameter α) l rounded, q.Admitted values label checked l rounded →
      π.values q.domain rounded l) :
    Moves (Follows π (Parameter.Growth π)) (add p values label checked) :=
  follows_of_touches (moves_add p values label checked) (fun _ => ends_query_bind_of_missing)
    fun _ q hq => ends_add_event hq (hallowed q)

/-- Derived supports are put in place at once. -/
theorem follows_addGenerative (p : Ref) :
    Moves (Follows π (Parameter.Growth π)) (addGenerative (α := α) p) := by
  refine follows_of_touches (moves_addGenerative p) (fun w => ends_query_bind_of_missing)
    fun w q hq => ?_
  have hsame : w.ComesFrom (Parameter.Growth π) p q := ⟨q, hq, .refl⟩
  refine ends_addGenerative_of hsame (fun _ _ _ => hsame)
    fun q₀ basis label derived hq₀ hmissing hinfo hderived => ?_
  obtain rfl : q = q₀ := Except.ok.inj (hq.symm.trans hq₀)
  refine (ends_add_of_missing hq hmissing derived (.given label) false).mono ?_ ?_
  · rintro _ w₁ ⟨l, rounded, equations, hl, hstorable, hr, hq₁⟩
    cases hl
    have hderive := Parameter.Growth.derive (π := π) hmissing hinfo hderived hr hstorable
    exact ⟨_, Model.parameter_modifyParameter hq₁ _, .tail (.single hderive) (.note equations)⟩
  · rintro w' ⟨rfl, -⟩
    exact hsame

theorem follows_resetGenerative (p : Ref) :
    Moves (Follows π (Parameter.Growth π)) (resetGenerative (α := α) p) := by
  refine follows_of_touches (moves_resetGenerative p) (fun w => ends_query_bind_of_missing)
    fun w q hq => ends_of_derivable (moves_resetGenerative p) hq fun hd => ?_
  cases hgen : q.hasGenerative with
  | true =>
    obtain ⟨basis, derived, hinfo, hown⟩ := hd hgen
    have withdrawn : ∀ w' : Workspace α, (∃ internal, q.Noted [derived] internal ∧
        w'.model.parameter (.given p) = .ok
          { q.without [derived] internal with hasEquations := false }) →
        w'.ComesFrom (Parameter.Growth π) p q := by
      rintro w' ⟨internal, hnoted, hq'⟩
      exact ⟨_, hq', .tail (.single (.withdraw hinfo hown hnoted)) (.note false)⟩
    exact (ends_resetGenerative_placed hq hgen hinfo hown).mono
      (fun _ w' ⟨internal, hnoted, hq'⟩ => withdrawn w' ⟨internal, hnoted.2, hq'⟩)
      fun w' h => withdrawn w' h.2
  | false => exact ends_resetGenerative_of_missing hq hgen ⟨q, hq, .refl⟩

theorem follows_resetEquations (p : Ref) :
    Moves (Follows π (Parameter.Growth π)) (resetEquations p : Operation α Unit) := by
  refine follows_of_touches (moves_resetEquations p) (fun w => ends_query_bind_of_missing)
    fun w q hq => ?_
  exact (ends_resetEquations hq).mono
    (fun _ _ h => ⟨_, h.1.parameter, .single (.note false)⟩) fun _ h => h.elim

/-- Deleting strips labels or takes all supports away. -/
theorem follows_delete (p : Ref) (label : Label) :
    Moves (Follows π (Parameter.Event π)) (delete p label : Operation α Unit) := by
  refine follows_of_touches (moves_delete p label) (fun w => ends_query_bind_of_missing)
    fun w q hq => ?_
  have hsame : w.ComesFrom (Parameter.Event π) p q := ⟨q, hq, .refl⟩
  -- stored equations are dropped first, whatever becomes of the supports
  have hnote : ReflTransGen (Parameter.Event π) q { q with hasEquations := false } :=
    .single (.grow (.note false))
  by_cases hl : label = .all
  · subst hl
    refine ends_delete_all hsame fun q₀ w₁ hq₀ hw₁ => ?_
    obtain rfl : q = q₀ := Except.ok.inj (hq.symm.trans hq₀)
    exact ⟨_, (Model.parameter_markStaleIfUsed _).trans
      (Model.parameter_modifyParameter hw₁.parameter _), hnote.tail .clear⟩
  · refine ends_delete hl (fun _ _ => hsame) fun q₀ w₁ hq₀ hw₁ => ?_
    obtain rfl : q = q₀ := Except.ok.inj (hq.symm.trans hq₀)
    refine ⟨fun _ _ => ⟨_, hw₁.parameter, hnote⟩, fun derived _ supports failed hstrip => ?_⟩
    obtain ⟨rfl, rfl⟩ : (q.supports.strip (selectors q label derived)).1 = supports ∧
        (q.supports.strip (selectors q label derived)).2 = failed := by
      rw [hstrip]
      exact ⟨rfl, rfl⟩
    have hq₂ := Model.parameter_modifyParameter hw₁.parameter fun q₁ => { q₁ with
      supports := (q.supports.strip (selectors q label derived)).1, hasGenerative := false }
    have hq₃ := Model.parameter_modifyParameter hq₂ fun q₁ => { q₁ with hasInternal :=
      q₁.hasInternal && (q.supports.strip (selectors q label derived)).1.hasInternal }
    -- whether stripping ends early or not, the event is the same
    have hstrips : ∀ internal, q.Noted (selectors q label derived) internal →
        ReflTransGen (Parameter.Event π) q
          { q.without (selectors q label derived) internal with hasEquations := false } :=
      fun internal hnoted => .tail (.single (.strip hnoted)) (.grow (.note false))
    exact ⟨fun hearly => ⟨_, hq₂, hstrips q.hasInternal (.inl ⟨hearly, rfl⟩)⟩,
      fun hdone => ⟨_, (Model.parameter_markStaleIfUsed _).trans hq₃,
        hstrips _ (.inr ⟨hdone, rfl⟩)⟩⟩

/-- Replacing supports, which are none unless that is forced. -/
theorem ends_set_event (hq : w.model.parameter (.given p) = .ok q) {values : List α}
    {label : Argument Label} {force : Bool}
    (hreplace : ∀ l rounded, label = .given l → l.isSelector = false →
      (force = false → q.supports.supports = []) → roundList q.digits values = .ok rounded →
      q.checkBounds rounded = .ok () →
      ReflTransGen R q { q.replaced rounded l with hasEquations := false }) :
    Ends (set p values label force) w
      (fun _ w' => w'.ComesFrom R p q)
      fun w' => w'.ComesFrom R p q := by
  refine ends_set_by ⟨q, hq, .refl⟩
    fun q₀ l rounded hq₀ hgiven hl hnone hr hbounds w₂ hcleared => ?_
  obtain rfl : q = q₀ := Except.ok.inj (hq.symm.trans hq₀)
  exact ⟨_, (Model.parameter_markStaleIfUsed _).trans
    (Model.parameter_modifyParameter hcleared.parameter _), hreplace l rounded hgiven hl hnone hr
      hbounds⟩

theorem moves_set (p : Ref) (values : List α) (label : Argument Label) (force : Bool) :
    Moves (Touches p) (set p values label force) := by
  refine ⟨fun w => ends_set_of (refl_of (Touches p) w) fun q l rounded _ _ _ _ w₂ hcleared => ?_⟩
  have ht₁ : w.Touches p { w with model := w.model.modifyParameter p fun q =>
      { q with supports := (SupportMap.empty.addAll rounded l).2 } } :=
    (refl_of (Touches p) w).modifyParameter fun _ => ⟨rfl, rfl, rfl⟩
  have ht₂ := trans_of (Touches p) ht₁ hcleared.touches
  refine Touches.markStaleIfUsed (ht₂.modifyParameter fun q => ?_) p
  exact ⟨rfl, rfl, rfl⟩

theorem follows_set {values : List α} {label : Argument Label} (p : Ref) (force : Bool)
    (hallowed : ∀ (q : Parameter α) l rounded, label = .given l →
      roundList q.digits values = .ok rounded → q.checkBounds rounded = .ok () →
      π.values q.domain rounded l) :
    Moves (Follows π (Parameter.Event π)) (set p values label force) :=
  follows_of_touches (moves_set p values label force) (fun _ => ends_query_bind_of_missing)
    fun _ q hq => ends_set_event hq fun l rounded hgiven hl _ hr hbounds =>
      .tail (.single (.replace hr hl (hallowed q l rounded hgiven hr hbounds)))
        (.grow (.note false))

/-- Without force, only a parameter without supports gets the given ones. -/
theorem follows_place {values : List α} {label : Argument Label} (p : Ref)
    (hallowed : ∀ (q : Parameter α) l rounded, label = .given l →
      roundList q.digits values = .ok rounded → q.checkBounds rounded = .ok () →
      π.values q.domain rounded l) :
    Moves (Follows π (Parameter.Growth π)) (set p values label false) :=
  follows_of_touches (moves_set p values label false) (fun _ => ends_query_bind_of_missing)
    fun _ q hq => ends_set_event hq fun l rounded hgiven hl hnone hr hbounds =>
      .tail (.single (.place hr hl (hallowed q l rounded hgiven hr hbounds) (hnone rfl)))
        (.note false)

/-- The method and the way in which supports are derived can be replaced where none are in place. -/
theorem follows_redefine {w w₁ : Workspace α} (h : Follows π (Parameter.Event π) w w₁)
    (hq : w₁.model.parameter (.given p) = .ok q) (hmissing : q.hasGenerative = false)
    {f : Parameter α → Parameter α}
    (hf : ∀ q, ∃ method info, f q = { q with method, info })
    (hallowed : π.infos q.domain q.digits (f q).info) :
    Follows π (Parameter.Event π) w
      { w₁ with model := (w₁.model.modifyParameter p f).markStaleIfUsed p } := by
  have ht : w₁.model.Alters p ((w₁.model.modifyParameter p f).markStaleIfUsed p) := by
    refine (Model.alters_modifyParameter w₁.model p f fun q => ?_).trans
      (Model.touches_markStaleIfUsed _ p p).toAlters
    obtain ⟨method, info, hq⟩ := hf q
    rw [hq]
    exact ⟨rfl, rfl⟩
  have hq' := (Model.parameter_markStaleIfUsed (p := p) _).trans
    (Model.parameter_modifyParameter hq f)
  obtain ⟨method, info, hfq⟩ := hf q
  rw [hfq] at hq' hallowed
  exact trans_of (Follows π (Parameter.Event π)) h
    (.of_alters ht hq hq' (.single (.redefine method info hmissing hallowed)))

/-- Replacing the way in which supports are derived, by one that the policy allows. -/
theorem ends_setInfo_follows {info : Argument (GenerativeInfo α)}
    (hallowed : ∀ info' q, info = .given info' → w.model.parameter (.given p) = .ok q →
      π.infos q.domain q.digits info') :
    Ends (setInfo p info) w (fun _ w' => Follows π (Parameter.Event π) w w')
      fun w' => Follows π (Parameter.Event π) w w' := by
  cases info with
  | mistyped value => exact (ends_throw _).2 (refl_of _ w)
  | given info =>
    simp only [setInfo, ends_bind, ends_query, ends_modifyModel]
    refine ((((follows_resetGenerative p).ends w).and ((moves_resetGenerative p).ends w)).and
      (ends_resetGenerative_missing p)).mono ?_ fun _ h => h.1.1.event
    rintro _ w₁ ⟨⟨h₁, ht₁⟩, hmissing⟩
    refine ⟨fun q hq => follows_redefine h₁.event hq (hmissing q hq)
      (fun q => ⟨q.method, info, rfl⟩) ?_, fun _ _ => h₁.event⟩
    obtain ⟨q₀, hq₀⟩ := ht₁.model.objects.symm.parameter hq
    obtain ⟨q₁, hq₁, hdigits, hdomain, -⟩ := ht₁.model.parameter hq₀
    obtain rfl : q = q₁ := Except.ok.inj (hq.symm.trans hq₁)
    rw [hdomain, hdigits]
    exact hallowed info q₀ rfl hq₀

/-- Replacing the method, and with it the way in which supports are derived. -/
theorem ends_setMethod_follows {method : Argument DerivativeMethod}
    (hallowed : ∀ method' q, method = .given method' → w.model.parameter (.given p) = .ok q →
      π.infos q.domain q.digits method'.generativeInfo) :
    Ends (setMethod p method) w (fun _ w' => Follows π (Parameter.Event π) w w')
      fun w' => Follows π (Parameter.Event π) w w' := by
  cases method with
  | mistyped value => exact (ends_throw _).2 (refl_of _ w)
  | given method =>
    simp only [setMethod, ends_bind, ends_query, ends_modifyModel]
    refine ⟨fun q hq => ?_, fun _ _ => refl_of _ w⟩
    refine (((follows_resetEquations p).ends w).and ((moves_resetEquations p).ends w)).mono ?_
      fun _ h => h.1.event
    rintro _ w₁ ⟨h₁, ht₁⟩
    refine ((((follows_resetGenerative p).ends w₁).and ((moves_resetGenerative p).ends w₁)).and
      (ends_resetGenerative_missing p)).mono ?_ fun _ h =>
        trans_of (Follows π (Parameter.Event π)) h₁.event h.1.1.event
    rintro _ w₂ ⟨⟨h₂, ht₂⟩, hmissing⟩
    -- what is reset leaves the domain and the digits, of which the policy speaks
    obtain ⟨q₂, hq₂, hdigits, hdomain, -⟩ := (trans_of (Touches p) ht₁ ht₂).model.parameter hq
    refine follows_redefine (trans_of (Follows π (Parameter.Growth π)) h₁ h₂).event hq₂
      (hmissing q₂ hq₂) (fun _ => ⟨method, method.generativeInfo, rfl⟩) ?_
    rw [hdomain, hdigits]
    exact hallowed method q rfl hq

end Store

/-! ## Evaluations and edits -/

open Operation Workspace Store

theorem Evaluation.follows_evaluate (d : Ref) :
    Moves (Follows π (Parameter.Growth π)) (evaluate (α := α) d) := by
  refine (moves_query _).bind fun derivative => moves_model.bind fun m => ?_
  split
  · exact .pure _
  · refine (moves_query _).bind fun object =>
      (follows_addGenerative object.parameter).bind fun _ => ⟨fun w => ?_⟩
    have hrefl := refl_of (Follows π (Parameter.Growth π)) w
    rw [ends_bind, ends_query]
    refine ⟨fun q hq => ?_, fun _ _ => hrefl⟩
    rw [ends_bind, ends_check]
    refine ⟨fun equations _ => ?_, fun _ _ => hrefl⟩
    rw [ends_bind, ends_modifyModel, ends_pure]
    let stored := w.model.storeEquations derivative.index.toNat equations
    let f (q : Parameter α) : Parameter α := { q with hasEquations := true }
    -- stored equations are no part of any parameter
    have hstored : Follows π (Parameter.Growth π) w { w with model := stored } :=
      .of_parameters rfl rfl
    refine trans_of (Follows π (Parameter.Growth π)) hstored ?_
    exact .of_alters (Model.alters_modifyParameter stored object.parameter f fun _ => ⟨rfl, rfl⟩) hq
      (Model.parameter_modifyParameter hq f) (.single (.note true))

/-- Edits only set flags of parameters. -/
theorem Workspace.Follows.of_edits {w w' : Workspace α} (h : w.model.Edits w'.model) :
    Follows π (Parameter.Growth π) w w' := by
  obtain ⟨e, m'⟩ := w'
  change w.model.Edits m' at h
  cases h with
  | addDerivative ha =>
    obtain ⟨v, variableName, parameters, q, -, -, -, -, rfl⟩ := Model.exists_of_addDerivative ha
    exact .of_parameters rfl rfl
  | deleteDerivative hd =>
    obtain ⟨ref, d, _, q, -, -, rfl, hq, rfl⟩ := Model.exists_of_deleteDerivative hd
    split
    · exact .of_parameters rfl rfl
    · -- without its last evaluated derivative the parameter is noted as not evaluated
      let kept : Model α :=
        { w.model.dropEquations ref.index with derivatives := w.model.derivatives.erase ref.index }
      let f (q : Parameter α) : Parameter α := { q with hasEquations := false }
      have hkept : Follows π (Parameter.Growth π) w ⟨e, kept⟩ := .of_parameters rfl rfl
      refine trans_of (Follows π (Parameter.Growth π)) hkept ?_
      exact .of_alters ((Model.alters_modifyParameter kept d.parameter f fun _ => ⟨rfl, rfl⟩).trans
        (Model.alters_markStale _ _)) hq (Model.parameter_modifyParameter (m := kept) hq f)
          (.single (.note false))
  | other hid hp => exact .of_parameters hid hp

/-- Parameters only grow where supports are not changed on purpose. -/
theorem sustains_follows : Sustains (Follows (α := α) .free (Parameter.Growth .free)) where
  push _ _ hnew := .push hnew trivial
  edit _ _ h := .of_edits h
  place p _ _ := follows_place p fun _ _ _ _ _ _ => trivial
  add p _ _ _ := follows_add p fun _ _ _ _ => trivial
  addGenerative := follows_addGenerative
  evaluate := Evaluation.follows_evaluate

/-- Replacing the way in which supports are derived is an event. -/
theorem Store.follows_setInfo (p : Ref) (info : Argument (GenerativeInfo α)) :
    Moves (Follows .free (Parameter.Event .free)) (setInfo p info) :=
  ⟨fun _ => ends_setInfo_follows fun _ _ _ _ => trivial⟩

/-- Parameters go by events, whatever is asked for. -/
theorem governs_follows : Governs (Follows (α := α) .free (Parameter.Event .free)) where
  push _ _ hnew := .push hnew trivial
  edit _ _ h := (Workspace.Follows.of_edits h).event
  set p _ _ force := follows_set p force fun _ _ _ _ _ _ => trivial
  add p _ _ _ := (follows_add p fun _ _ _ _ => trivial).mono fun _ _ h => h.event
  delete := follows_delete
  addGenerative p := (follows_addGenerative p).mono fun _ _ h => h.event
  setMethod _ _ := ⟨fun _ => ends_setMethod_follows fun _ _ _ _ => trivial⟩
  evaluate d := (Evaluation.follows_evaluate d).mono fun _ _ h => h.event

/-- What new parameters have and events keep, the parameters of all models have. -/
theorem Requested.event_induction {P : Parameter α → Prop} (hnew : ∀ q, q.New → P q)
    (hevent : ∀ q q', P q → q.Event .free q' → P q') {m : Model α} (h : Requested m) :
    ∀ p q, m.parameter (.given p) = .ok q → P q := by
  induction h with
  | start id name =>
    intro p q hq
    obtain ⟨-, -, hget⟩ := Model.parameter_eq_ok.1 hq
    cases hget
  | @step m _ e request ih =>
    obtain ⟨w', hw', hfollows⟩ := Request.moves_perform
      (governs_follows.operation request fun p info _ => follows_setInfo p info) ⟨e, m⟩
    rw [← hw']
    exact hfollows.keeps (fun q hq _ => hnew q hq) hevent ih

end Discretization
