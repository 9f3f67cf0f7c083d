import Discretization.Proofs.Events
import Discretization.Proofs.Representations

/-!
# What Requests Leave in Store

Only few requests are meant to take supports away: replacing the supports of a parameter, deleting
some, and deleting a measure with its own ones. All others take away derived supports at most. So
whatever else was stored under a label before such a request is stored under it afterwards, also
where the request fails halfway.

## Main definitions

* `Parameter.Retains`: what was stored under a label other than that of derived supports still is;
* `Parameter.Spares`: so is what was stored under a label apart from that of derived supports;
* `Request.takesAway`: the requests that are meant to take supports away.

## Main results

* `Parameter.Growth.endures`: a parameter that grows spares its supports;
* `Request.spares_operation`: all other requests spare the supports of all parameters;
* `retains_of_request`: in particular they retain them.
-/

namespace Discretization

open Relation (ReflTransGen)

variable {α : Type} [Scalar α]

/-! ## Labelled values in store -/

namespace SupportMap

variable {m : SupportMap α} {x : α} {l : Label}

/-- A value is stored under a label. -/
def Stores (m : SupportMap α) (x : α) (l : Label) : Prop :=
  ∃ s ∈ m.supports, s.value = x ∧ l ∈ s.labels

theorem Stores.add (h : m.Stores x l) (value : α) (label : Label) :
    (m.add value label).2.Stores x l := by
  obtain ⟨s, hs, rfl, hl⟩ := h
  cases hc : m.contains value with
  | true =>
    rw [SupportMap.add, if_pos hc]
    by_cases he : s.value == value
    · refine ⟨_, List.mem_map_of_mem hs, ?_⟩
      rw [if_pos he]
      exact ⟨rfl, Label.mem_insert.2 (.inl hl)⟩
    · refine ⟨_, List.mem_map_of_mem hs, ?_⟩
      rw [if_neg he]
      exact ⟨rfl, hl⟩
  | false =>
    rw [add_of_not_contains label hc]
    exact ⟨s, (List.mem_insertIdx (positionAfter_le _ _)).2 (.inr hs), rfl, hl⟩

theorem Stores.addAll (h : m.Stores x l) (values : List α) (label : Label) :
    (m.addAll values label).2.Stores x l := by
  induction values generalizing m with
  | nil => exact h
  | cons value rest ih =>
    rw [addAll_cons]
    exact ih (h.add value label)

/-- Stripping labels, also where it ends early, removes no support with a label that is not
covered, and does not take that label off. -/
theorem stores_stripFrom {selectors : List Label} (hl : Label.coveredBy selectors l = false)
    (kept rest : List (Support α)) (h : Stores ⟨kept ++ rest⟩ x l) :
    Stores ⟨(stripFrom selectors kept rest).1⟩ x l := by
  induction rest generalizing kept with
  | nil => simpa [stripFrom] using h
  | cons support rest ih =>
    obtain ⟨s, hs, hx, hmem⟩ := h
    rw [stripFrom]
    split
    · rename_i hall
      split
      · -- the support goes, so it is not the one in question
        refine ih kept ⟨s, ?_, hx, hmem⟩
        rcases List.mem_append.1 hs with hs | hs
        · exact List.mem_append_left _ hs
        · rcases List.mem_cons.1 hs with rfl | hs
          · have hcovered := List.all_eq_true.1 hall l hmem
            rw [hl] at hcovered
            cases hcovered
          · exact List.mem_append_right _ hs
      · exact ⟨s, hs, hx, hmem⟩
    · refine ih _ ?_
      rcases List.mem_append.1 hs with hs | hs
      · exact ⟨s, by simp [hs], hx, hmem⟩
      · rcases List.mem_cons.1 hs with rfl | hs
        · -- the support stays, and so does a label that is not covered
          refine ⟨{ s with labels := s.labels.filter fun label =>
            !Label.coveredBy selectors label }, by simp, hx, ?_⟩
          exact List.mem_filter.2 ⟨hmem, by rw [hl]; rfl⟩
        · exact ⟨s, by simp [hs], hx, hmem⟩

theorem Stores.strip (h : m.Stores x l) {selectors : List Label}
    (hl : Label.coveredBy selectors l = false) : (m.strip selectors).1.Stores x l :=
  stores_stripFrom hl [] m.supports h

end SupportMap

/-! ## Parameters that grow -/

namespace Parameter

variable {π : Policy α} {q q' q'' : Parameter α}

/-- Whatever is stored under another label than that of derived supports is still stored. -/
def Retains (q q' : Parameter α) : Prop :=
  ∀ x l, q.supports.Stores x l → q.info.label ≠ .ok l → q'.supports.Stores x l

/-- Whatever is stored under a label apart from that of derived supports is still stored, and values
are rounded as before. A parameter without derived supports has no such label. -/
structure Spares (q q' : Parameter α) : Prop where
  digits : q'.digits = q.digits
  stores : ∀ x l, q.supports.Stores x l → q.Apart l → q'.supports.Stores x l

omit [Scalar α] in
theorem Spares.retains (h : q.Spares q') : q.Retains q' := by
  intro x l hx hl
  apply h.stores x l hx
  rintro basis derived hinfo rfl
  apply hl
  rw [hinfo]
  rfl

omit [Scalar α] in
theorem Spares.of_no_supports (hdigits : q'.digits = q.digits) (h : q.supports.supports = []) :
    q.Spares q' := by
  refine ⟨hdigits, ?_⟩
  rintro x l ⟨s, hs, -⟩
  simp [h] at hs

/-- What stays as a parameter grows: the supports but derived ones, and with them what they are
derived by. -/
structure Endures (q q' : Parameter α) : Prop where
  info : q'.info = q.info
  derivable : q'.Derivable
  spares : q.Spares q'

omit [Scalar α] in
/-- A label that is apart from that of derived supports is not covered by it. -/
theorem Apart.not_coveredBy {basis : List α} {derived l : Label} (h : q.Apart l)
    (hinfo : q.info = .uniform basis derived) (hown : derived.isSelector = false) :
    Label.coveredBy [derived] l = false :=
  Store.coveredBy_singleton hown (h basis derived hinfo)

/-- A parameter that grows spares its supports. -/
theorem Growth.endures (h : q.Growth π q') (hd : q.Derivable) : q.Endures q' := by
  cases h with
  | note equations => exact ⟨rfl, hd, rfl, fun _ _ hx _ => hx⟩
  | add rounds storable allowed harmless => exact ⟨rfl, hd, rfl, fun _ _ hx _ => hx.addAll _ _⟩
  | withdraw info own noted =>
    exact ⟨rfl, nofun, rfl, fun _ _ hx ha => hx.strip (ha.not_coveredBy info own)⟩
  | displace rounds storable allowed info own noted =>
    exact ⟨rfl, nofun, rfl, fun _ _ hx ha => (hx.addAll _ _).strip (ha.not_coveredBy info own)⟩
  | @derive basis _ _ label _ missing info derives rounds storable =>
    exact ⟨rfl, fun _ => ⟨basis, label, info, storable⟩, rfl, fun _ _ hx _ => hx.addAll _ _⟩
  | place rounds storable allowed none => exact ⟨rfl, nofun, .of_no_supports rfl none⟩
  | underivable hnot => exact absurd hd hnot

theorem endures_of_growths (h : ReflTransGen (Growth π) q q') (hd : q.Derivable) :
    q.Endures q' := by
  induction h with
  | refl => exact ⟨rfl, hd, rfl, fun _ _ hx _ => hx⟩
  | tail _ hlast ih =>
    -- growth does not replace the information, so all steps spare the same labels
    obtain ⟨hinfo, hderivable, hspares⟩ := ih
    obtain ⟨hinfo', hderivable', hspares'⟩ := hlast.endures hderivable
    refine ⟨hinfo'.trans hinfo, hderivable', hspares'.digits.trans hspares.digits,
      fun x l hx ha => hspares'.stores x l (hspares.stores x l hx ha) ?_⟩
    unfold Apart
    rwa [hinfo]

/-- Derived supports in place always have a label of their own. -/
theorem Event.derivable (h : q.Event π q') (hd : q.Derivable) : q'.Derivable := by
  cases h with
  | grow hgrowth => exact (hgrowth.endures hd).derivable
  | strip noted => exact nofun
  | clear => exact nofun
  | replace rounds storable allowed => exact nofun
  | redefine method info missing allowed =>
    intro hset
    have hset : q.hasGenerative = true := hset
    rw [missing] at hset
    cases hset

theorem derivable_of_requested {m : Model α} (h : Requested m) :
    ∀ p q, m.parameter (.given p) = .ok q → q.Derivable :=
  h.event_induction (fun _ hnew => .of_new hnew)
    fun _ _ hd hevent => hevent.derivable hd

end Parameter

/-! ## Requests -/

open Operation Workspace Store

/-- Every parameter whose derived supports have a label of their own retains its supports. -/
def Workspace.Retains (w w' : Workspace α) : Prop :=
  ∀ p q, w.model.parameter (.given p) = .ok q → q.Derivable →
    ∃ q', w'.model.parameter (.given p) = .ok q' ∧ q.Retains q'

/-- Every parameter whose derived supports have a label of their own spares its supports. -/
def Workspace.Spares (w w' : Workspace α) : Prop :=
  ∀ p q, w.model.parameter (.given p) = .ok q → q.Derivable →
    ∃ q', w'.model.parameter (.given p) = .ok q' ∧ q.Spares q'

omit [Scalar α] in
theorem Workspace.Spares.retains {w w' : Workspace α} (h : w.Spares w') : w.Retains w' := by
  intro p q hq hd
  obtain ⟨q', hq', hspares⟩ := h p q hq hd
  exact ⟨q', hq', hspares.retains⟩

theorem Workspace.Follows.spares {w w' : Workspace α}
    (h : Follows .free (Parameter.Growth .free) w w') : w.Spares w' := by
  intro p q hq hd
  obtain ⟨q', hq', hgrowths⟩ := h.kept p q hq
  exact ⟨q', hq', (Parameter.endures_of_growths hgrowths hd).spares⟩

/-- The way in which supports are derived is replaced after the derived ones were taken away, and
that leaves the others as they are. -/
theorem Workspace.Follows.spares_redefined {w w₁ : Workspace α}
    (h : Follows .free (Parameter.Growth .free) w w₁) (p : Ref) {f : Parameter α → Parameter α}
    (hf : ∀ q, (f q).digits = q.digits ∧ (f q).domain = q.domain ∧ (f q).supports = q.supports) :
    w.Spares { w₁ with model := (w₁.model.modifyParameter p f).markStaleIfUsed p } := by
  intro p₁ q hq hd
  obtain ⟨q₁, hq₁, hspares⟩ := h.spares p₁ q hq hd
  -- only the fields that say how to derive are written, and only at one parameter
  by_cases hp : p₁.index = p.index
  · refine ⟨f q₁, ?_, (hf q₁).1.trans hspares.digits, fun x l hx ha => ?_⟩
    · obtain ⟨hid, hkind, hget⟩ := Model.parameter_eq_ok.1 hq₁
      rw [hp] at hget
      exact (Model.parameter_markStaleIfUsed _).trans (Model.parameter_eq_ok.2
        ⟨hid, hkind, by rw [hp]; exact Table.get?_modify_self hget f⟩)
    · rw [(hf q₁).2.2]
      exact hspares.stores x l hx ha
  · have ht := Model.alters_modifyParameter w₁.model p f fun q => ⟨(hf q).1, (hf q).2.1⟩
    exact ⟨q₁, (Model.parameter_markStaleIfUsed _).trans ((ht.parameter_of_ne hp).2 hq₁), hspares⟩

theorem Store.spares_setInfo (p : Ref) (info : Argument (GenerativeInfo α)) (w : Workspace α) :
    Ends (setInfo p info) w (fun _ w' => w.Spares w') fun w' => w.Spares w' := by
  have hrefl := (refl_of (Follows .free (Parameter.Growth .free)) w).spares
  cases info with
  | mistyped value => exact (ends_throw _).2 hrefl
  | given info =>
    simp only [setInfo, ends_bind, ends_query, ends_modifyModel]
    refine ((follows_resetGenerative p).ends w).mono ?_ fun _ h => h.spares
    intro _ w₁ h₁
    exact ⟨fun q _ => h₁.spares_redefined p fun _ => ⟨rfl, rfl, rfl⟩, fun _ _ => h₁.spares⟩

theorem Store.spares_setMethod (p : Ref) (method : Argument DerivativeMethod)
    (w : Workspace α) :
    Ends (setMethod p method) w (fun _ w' => w.Spares w') fun w' => w.Spares w' := by
  have hrefl := (refl_of (Follows .free (Parameter.Growth .free)) w).spares
  cases method with
  | mistyped value => exact (ends_throw _).2 hrefl
  | given method =>
    simp only [setMethod, ends_bind, ends_query, ends_modifyModel]
    refine ⟨fun q _ => ?_, fun _ _ => hrefl⟩
    refine ((follows_resetEquations p).ends w).mono ?_ fun _ h => h.spares
    -- with the equations and the derived supports gone, the rest stays
    intro _ w₁ h₁
    refine ((follows_resetGenerative p).ends w₁).mono ?_ fun _ h₂ =>
      (trans_of (Follows .free (Parameter.Growth .free)) h₁ h₂).spares
    intro _ w₂ h₂
    exact (trans_of (Follows .free (Parameter.Growth .free)) h₁ h₂).spares_redefined p
      fun _ => ⟨rfl, rfl, rfl⟩

/-- Whether a request is meant to take supports away. -/
def Request.takesAway : Request α → Bool
  | setSupports .. => true
  | deleteSupports .. => true
  | deleteMeasure .. => true
  | _ => false

/-- What a request leaves that is not meant to take supports away. -/
theorem Request.spares_operation (request : Request α) (hleaves : request.takesAway = false)
    (w : Workspace α) :
    Ends request.operation w (fun _ w' => w.Spares w') fun w' => w.Spares w' := by
  by_cases hinfo : ∃ p info, request = .setGenerativeInfo p info
  · obtain ⟨p, info, rfl⟩ := hinfo
    exact Store.spares_setInfo p info w
  by_cases hmethod : ∃ p method, request = .setDerivativeMethod p method
  · obtain ⟨p, method, rfl⟩ := hmethod
    exact Store.spares_setMethod p method w
  -- any other request is made of operations under which parameters grow
  have hmoves : Moves (Follows .free (Parameter.Growth .free)) request.operation := by
    refine sustains_follows.operation request ?_ ?_ ?_ (fun p info h => absurd ⟨p, info, h⟩ hinfo)
      fun p method h => absurd ⟨p, method, h⟩ hmethod
    all_goals
      intros
      subst request
      cases hleaves
  exact (hmoves.ends w).mono (fun _ _ h => h.spares) fun _ h => h.spares

theorem Request.retains_operation (request : Request α) (hleaves : request.takesAway = false)
    (w : Workspace α) :
    Ends request.operation w (fun _ w' => w.Retains w') fun w' => w.Retains w' :=
  (request.spares_operation hleaves w).mono (fun _ _ h => h.retains) fun _ h => h.retains

/-- Whatever is stored on a parameter under a label other than that of its derived supports is still
stored after any request that is not meant to take supports away, whether it succeeds or fails. -/
theorem retains_of_request {m : Model α} (h : Requested m) (e : Environment α) (request : Request α)
    (hleaves : request.takesAway = false) {p : Ref} {q : Parameter α}
    (hq : m.parameter (.given p) = .ok q) :
    ∃ q', (request.perform ⟨e, m⟩).parameter (.given p) = .ok q' ∧
      ∀ s ∈ q.supports.supports, ∀ l ∈ s.labels, q.info.label ≠ .ok l →
        ∃ s' ∈ q'.supports.supports, s'.value = s.value ∧ l ∈ s'.labels := by
  have hretains := Request.of_ends (P := fun m' => Workspace.Retains ⟨e, m⟩ ⟨e, m'⟩)
    ((request.retains_operation hleaves ⟨e, m⟩).mono (fun _ _ h => h) fun _ h => h)
  obtain ⟨q', hq', hstores⟩ := hretains p q hq (Parameter.derivable_of_requested h p q hq)
  exact ⟨q', hq', fun s hs l hl hother => hstores s.value l ⟨s, hs, rfl, hl⟩ hother⟩

/-- A new support makes derived ones go, among them one that is on a grid as well and stays
there. -/
theorem retains_of_request_derived :
    let p : Ref := ⟨0, .parameter, 1⟩
    let m : Model ℚ := Request.replay { id := 0 }
      [.addParameter (.scalar (.interval 0 1)) "t" (some [0, 1]) 0 (some 6)
        (.finiteDifference .backward),
      .setGenerativeInfo p (.given (.uniform [1 / 2] .collocation)),
      .addGenerativeSupports p,
      .addSupports p [1 / 2, 1] (.given .uniformGrid) true]
    let request : Request ℚ := .addSupports p [1 / 4] (.given .userDefined) true
    request.takesAway = false ∧ ∃ q q', m.parameter (.given p) = .ok q ∧
      q.supports.supports.map (·.labels) = [[.userDefined], [.collocation, .uniformGrid],
        [.userDefined, .uniformGrid]] ∧
      (request.perform ⟨{}, m⟩).parameter (.given p) = .ok q' ∧
      ∀ s ∈ q.supports.supports, ∀ l ∈ s.labels, q.info.label ≠ .ok l →
        ∃ s' ∈ q'.supports.supports, s'.value = s.value ∧ l ∈ s'.labels := by
  intro p m request
  have hr : Requested m := .replay (.start 0 "model") _
  obtain ⟨q, hq, hlabels⟩ := Except.exists_of_decide (x := m.parameter (.given p))
    (fun q => q.supports.supports.map (·.labels) = [[.userDefined],
      [.collocation, .uniformGrid], [.userDefined, .uniformGrid]]) (by decide +kernel)
  obtain ⟨q', hq', hretains⟩ := retains_of_request hr {} request rfl hq
  exact ⟨rfl, q, q', hq, hlabels, hq', hretains⟩

end Discretization
