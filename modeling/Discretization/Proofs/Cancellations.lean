import Discretization.Proofs.Pairs

/-!
# A Measure That Comes and Goes

A measure stores its points under the label of its data, and if that label is its own, deleting the
measure takes the label off again. Its points can coincide with stored values, make other values no
news, or take derived supports away. But all that concerns the label of derived supports only. What
other requests add in between is the same with the measure and without it, and so the deletion
leaves what they would have left alone.

## Main definitions

* `Request.Leads`: requests lead from one model to another;
* `Request.Adds`: requests that add supports, but not under a given label;
* `Request.Puts`: the pairs that a request puts in;
* `Parameter.Drops`: the pairs with some labels are gone.

## Main results

* `Request.gathers_of_leads`: what requests between an addition and a deletion put in;
* `Modeling.ends_addMeasure_gathers`, `Modeling.ends_deleteMeasure_drops`: what the measure puts in,
  and what its deletion takes away;
* `storesLike_iff_of_cancelled`: adding and deleting a measure cancel out.
-/

namespace Discretization

open Operation Workspace

variable {α : Type} [Scalar α] {m m' : Model α} {p : Ref} {q : Parameter α} {x : α} {l μ : Label}

/-! ## Runs of requests -/

namespace Request

/-- Requests one after the other lead from a model to another, each in an environment of its own. -/
inductive Leads : Model α → List (Request α) → Model α → Prop
  | nil (m : Model α) : Leads m [] m
  | cons {m m' : Model α} (e : Environment α) (request : Request α) {requests : List (Request α)}
      (h : Leads (request.perform ⟨e, m⟩) requests m') : Leads m (request :: requests) m'

theorem leads_replay (m : Model α) (requests : List (Request α)) :
    Leads m requests (replay m requests) := by
  induction requests generalizing m with
  | nil => exact .nil m
  | cons request rest ih => exact .cons {} request (ih _)

/-- Requests that add supports, given ones under another label or derived ones. -/
def Adds (μ : Label) : Request α → Prop
  | addSupports _ _ label _ => label ≠ .given μ
  | addGenerativeSupports _ => True
  | _ => False

/-- The pairs that a request puts in on a parameter. -/
def Puts (p : Ref) (q : Parameter α) (x : α) (l : Label) : Request α → Prop
  | addSupports p' values label checked => p' = p ∧ q.Accepts values label checked x l
  | _ => False

end Request

namespace Store

variable {w : Workspace α} {p' : Ref}

omit [Scalar α] in
/-- A change around a parameter, if that is live, leaves the others as they are. -/
theorem ends_other {β : Type} {op : Operation α β} (ht : Moves (Touches p') op)
    (hnone : (∀ q', w.model.parameter (.given p') ≠ .ok q') →
      Ends op w (fun _ w' => w' = w) fun w' => w' = w)
    (hp : p' ≠ p) (hq : w.model.parameter (.given p) = .ok q) :
    Ends op w (fun _ w' => w'.model.parameter (.given p) = .ok q)
      fun w' => w'.model.parameter (.given p) = .ok q := by
  -- if no such parameter is live, there is nothing that could change
  by_cases hlive : ∃ q', w.model.parameter (.given p') = .ok q'
  · obtain ⟨q', hq'⟩ := hlive
    have hother : ∀ w' : Workspace α, w.Touches p' w' → w'.model.parameter (.given p) = .ok q :=
      fun w' ht => (ht.model.parameter_of_ne (Model.index_ne hq' hq hp.symm)).2 hq
    exact (ht.ends w).mono (fun _ => hother) hother
  · refine (hnone fun q' hq' => hlive ⟨q', hq'⟩).mono ?_ ?_
    · rintro _ w' rfl
      exact hq
    · rintro w' rfl
      exact hq

variable [LawfulScalar α]

/-- What an addition to some parameter puts in on a given one. -/
theorem ends_add_gathers_of (hq : w.model.parameter (.given p) = .ok q) (hd : q.Derivable)
    (values : List α) (label : Argument Label) (checked : Bool) :
    Ends (add p' values label checked) w
      (fun _ w' => ∃ q', w'.model.parameter (.given p) = .ok q' ∧
        q.Gathers q' fun x l => p' = p ∧ q.Accepts values label checked x l)
      fun w' => ∃ q', w'.model.parameter (.given p) = .ok q' ∧
        q.Gathers q' fun x l => p' = p ∧ q.Accepts values label checked x l := by
  -- another parameter gets nothing from it
  by_cases hp : p' = p
  · subst hp
    simpa only [true_and] using ends_add_gathers hq hd
  · have hsame : q.Gathers q fun x l => p' = p ∧ q.Accepts values label checked x l :=
      (Parameter.Gathers.refl hd).congr fun x l _ => by simp [hp]
    refine (ends_other (moves_add p' values label checked) (fun hnone =>
      ends_query_bind_of_missing hnone) hp hq).mono ?_ ?_
    · exact fun _ _ hq' => ⟨q, hq', hsame⟩
    · exact fun _ hq' => ⟨q, hq', hsame⟩

end Store

namespace Request

variable [LawfulScalar α] {request : Request α} {requests : List (Request α)}

omit [LawfulScalar α] in
/-- Requests that add supports leave all objects as they are. -/
theorem Adds.keepsObjects (h : request.Adds μ) : Moves KeepsObjects request.operation := by
  cases request with
  | addSupports _ _ _ _ | addGenerativeSupports _ => exact moves_keepsObjects rfl
  | _ => exact h.elim

/-- What a request that adds supports puts in, whether it succeeds or fails. -/
theorem gathers_perform (h : request.Adds μ) (hq : m.parameter (.given p) = .ok q)
    (hd : q.Derivable) (e : Environment α) :
    ∃ q', (request.perform ⟨e, m⟩).parameter (.given p) = .ok q' ∧
      q.Gathers q' fun x l => request.Puts p q x l := by
  refine of_ends (P := fun m' => ∃ q', m'.parameter (.given p) = .ok q' ∧
    q.Gathers q' fun x l => request.Puts p q x l) ?_
  cases request with
  | addSupports p' values label checked =>
    rw [operation, ends_bind]
    exact (Store.ends_add_gathers_of (w := ⟨e, m⟩) hq hd values label checked).mono
      (fun _ _ h => (ends_pure _).2 h) fun _ h => h
  | addGenerativeSupports p' =>
    by_cases hp : p' = p
    · subst hp
      exact Store.ends_addGenerative_gathers (w := ⟨e, m⟩) hq hd
    · refine (Store.ends_other (w := ⟨e, m⟩) (Store.moves_addGenerative p')
        (fun hnone => Store.ends_query_bind_of_missing hnone) hp hq).mono ?_ ?_
      · exact fun _ _ hq' => ⟨q, hq', .refl hd⟩
      · exact fun _ hq' => ⟨q, hq', .refl hd⟩
  | _ => exact h.elim

omit [LawfulScalar α] in
theorem puts_congr {q' : Parameter α} (hdigits : q'.digits = q.digits)
    (hdomain : q'.domain = q.domain) : request.Puts p q' x l ↔ request.Puts p q x l := by
  cases request <;> simp [Puts, Parameter.accepts_congr hdigits hdomain]

omit [LawfulScalar α] in
/-- Nothing is put in under the label that is left out. -/
theorem Adds.not_puts (h : request.Adds μ) : ¬ request.Puts p q x μ := by
  cases request with
  | addSupports p' values label checked => exact fun hputs => h hputs.2.eq_given
  | addGenerativeSupports p' => exact id
  | _ => exact h.elim

/-- What requests that add supports put in, one after the other. -/
theorem gathers_of_leads (h : Leads m requests m') (hadds : ∀ request ∈ requests, request.Adds μ)
    (hq : m.parameter (.given p) = .ok q) (hd : q.Derivable) :
    ∃ q', m'.parameter (.given p) = .ok q' ∧
      q.Gathers q' fun x l => ∃ request ∈ requests, request.Puts p q x l := by
  induction h generalizing q with
  | nil m => exact ⟨q, hq, (Parameter.Gathers.refl hd).congr fun x l _ => by simp⟩
  | cons e request _ ih =>
    obtain ⟨q₁, hq₁, hfirst⟩ := gathers_perform (hadds request List.mem_cons_self) hq hd e
    obtain ⟨q₂, hq₂, hrest⟩ :=
      ih (fun request hmem => hadds request (List.mem_cons_of_mem _ hmem)) hq₁ hfirst.derivable
    refine ⟨q₂, hq₂, (hfirst.trans hrest).congr fun x l _ => ?_⟩
    simp [puts_congr hfirst.digits hfirst.domain]

omit [LawfulScalar α] in
theorem sameObjects_of_leads (h : Leads m requests m')
    (hadds : ∀ request ∈ requests, request.Adds μ) : m.SameObjects m' := by
  induction h with
  | nil m => exact .refl m
  | cons e request _ ih =>
    obtain ⟨w, hw, hk⟩ := moves_perform (hadds request List.mem_cons_self).keepsObjects ⟨e, _⟩
    exact (hw ▸ hk.objects).trans
      (ih fun request hmem => hadds request (List.mem_cons_of_mem _ hmem))

end Request

/-! ## The measure -/

namespace Modeling

variable [LawfulScalar α] {w : Workspace α}

/-- What a loop of additions under one label puts in. -/
theorem ends_forIn_add_gathers (hq : w.model.parameter (.given p) = .ok q) (hd : q.Derivable)
    (pairs : List (Ref × List α)) (label : Label) :
    Ends (forIn pairs PUnit.unit fun pair _ => do
        let _ ← Store.add pair.1 pair.2 (.given label) false
        return .yield PUnit.unit) w
      (fun _ w' => ∃ q' puts, w'.model.parameter (.given p) = .ok q' ∧ q.Gathers q' puts ∧
        ∀ x l, puts x l → l = label ∧ p ∈ pairs.map Prod.fst)
      fun _ => True := by
  -- over the rows gone through, of which only those for the parameter itself put something in
  refine (Ends.forIn (fun gone w' => ∃ q' puts, w'.model.parameter (.given p) = .ok q' ∧
    q.Gathers q' puts ∧ ∀ x l, puts x l → l = label ∧ p ∈ gone.map Prod.fst)
    ⟨q, _, hq, .refl hd, fun _ _ => False.elim⟩ ?_).mono (fun _ _ h => h) fun _ h => h
  rintro gone pair rest w₁ - ⟨q₁, puts, hq₁, hgone, hlabel⟩
  rw [ends_bind]
  refine (Store.ends_add_gathers_of hq₁ hgone.derivable pair.2 (.given label) false).mono ?_
    fun _ _ => trivial
  rintro _ w₂ ⟨q₂, hq₂, hlast⟩
  refine (ends_pure _).2 ⟨rfl, q₂, _, hq₂, hgone.trans hlast, fun x l hputs => ?_⟩
  obtain hputs | ⟨rfl, haccepts⟩ := hputs
  · obtain ⟨hl, hp⟩ := hlabel x l hputs
    exact ⟨hl, by simp only [List.map_append, List.mem_append, hp, true_or]⟩
  · exact ⟨(Argument.given.inj haccepts.eq_given).symm, by simp⟩

/-- A new measure puts pairs in under its label only, and on its parameters only. -/
theorem ends_addMeasure_gathers (hs : w.model.Sound) (hq : w.model.parameter (.given p) = .ok q)
    (hd : q.Derivable) (function : Handle) (data : MeasureData α) (name : String) :
    Ends (addMeasure function data name) w
      (fun ref w' => (∃ measure, w'.model.measure ref = .ok measure ∧ measure.data = data) ∧
        ∃ q' puts, w'.model.parameter (.given p) = .ok q' ∧ q.Gathers q' puts ∧
          ∀ x l, puts x l → l = data.label ∧ p ∈ data.parameters)
      fun _ => True := by
  refine ends_addMeasure_of trivial fun ref functionParameters rows _ _ _ _ => ?_
  refine ((ends_forIn_add_gathers hq hd (data.parameters.zip rows) data.label).and
    ((keepsObjects_forIn_add (data.parameters.zip rows) id data.label).ends w)).mono ?_
    fun _ _ => trivial
  rintro _ w₁ ⟨⟨q₁, puts, hq₁, hgathers, hlabel⟩, hk⟩
  refine ⟨fun _ _ => trivial, fun name => ⟨⟨{ name, function := ref, data },
    Model.measure_eq_ok.2 ⟨rfl, rfl, ?_⟩, rfl⟩, q₁, puts, hq₁, hgathers, fun x l hputs => ?_⟩⟩
  · refine Table.get?_push_next ?_ _
    rw [hk.objects.measures]
    exact hs.measures
  · -- each row went to the parameter that it is paired with
    obtain ⟨hl, hp⟩ := hlabel x l hputs
    obtain ⟨pair, hpair, rfl⟩ := List.mem_map.1 hp
    exact ⟨hl, (List.of_mem_zip hpair).1⟩

end Modeling

/-- The second parameter derives supports like the first, and apart from the label of derived
supports it stores the same pairs but those with a label that was dropped. -/
structure Parameter.Drops (q q' : Parameter α) (dropped : Label → Prop) : Prop where
  info : q'.info = q.info
  derivable : q'.Derivable
  stores : ∀ x l, q.Apart l →
    (q'.supports.StoresLike x l ↔ q.supports.StoresLike x l ∧ ¬ dropped l)

namespace Store

variable {w : Workspace α} {label : Label}

/-- Deleting a label takes its pairs away, and of the others those with the label of derived
supports only. -/
theorem ends_delete_drops (hq : w.model.parameter (.given p) = .ok q) (hd : q.Derivable)
    (hown : label.isSelector = false) :
    Ends (delete p label) w
      (fun _ w' => ∃ q', w'.model.parameter (.given p) = .ok q' ∧ q.Drops q' (· = label))
      fun _ => True := by
  refine (ends_delete_strips hq hown).mono ?_ fun _ _ => trivial
  rintro _ w' ⟨derived, q', hlabel, hdone, hq', hsupports, hinfo, hgenerative⟩
  refine ⟨q', hq', hinfo, fun hset => by simp [hgenerative] at hset, fun x l ha => ?_⟩
  have hcovered : Label.coveredBy (selectors q label derived) l = false ↔ l ≠ label := by
    constructor
    · rintro hnot rfl
      -- the deleted label is among those that are taken off
      have hself : Label.coveredBy (selectors q l derived) l = true := by
        unfold selectors
        split <;> simp [Label.coveredBy, covers_eq_beq hown]
      simp [hself] at hnot
    · exact fun hne => ha.not_covered hd hown hne.symm hlabel
  rw [hsupports, SupportMap.storesLike_strip_iff hdone, hcovered]

end Store

namespace Modeling

variable {w : Workspace α} {measure : Measure α} {ref : Ref}

/-- Deleting a measure takes the pairs with a label of its own off its parameters. -/
theorem ends_deleteMeasure_drops (hmeasure : w.model.measure ref = .ok measure)
    (hkind : measure.data.label.kind = .uniqueMeasure)
    (hown : measure.data.label.isSelector = false)
    (hq : w.model.parameter (.given p) = .ok q) (hd : q.Derivable) :
    Ends (deleteMeasure (.given ref)) w
      (fun _ w' => ∃ q', w'.model.parameter (.given p) = .ok q' ∧
        q.Drops q' fun l => p ∈ measure.data.parameters ∧ l = measure.data.label)
      fun _ => True := by
  refine ends_deleteMeasure_of trivial fun ref' measure' hgiven hmeasure' => ?_
  obtain rfl := Argument.given.inj hgiven
  obtain rfl : measure = measure' := Except.ok.inj (hmeasure.symm.trans hmeasure')
  rw [if_pos hkind, ends_bind]
  let w₁ : Workspace α :=
    { w with model := { w.model with measures := w.model.measures.erase ref.index } }
  have hq₁ : w₁.model.parameter (.given p) = .ok q := hq
  -- the parameters gone through have dropped the label
  refine (Ends.forIn (fun gone w' => ∃ q', w'.model.parameter (.given p) = .ok q' ∧
    q.Drops q' fun l => p ∈ gone ∧ l = measure.data.label)
    ⟨q, hq₁, rfl, hd, fun x l _ => by simp⟩ ?_).mono ?_ fun _ h => h
  · rintro gone p' rest w₂ - ⟨q₂, hq₂, hgone⟩
    rw [ends_bind]
    by_cases hp : p' = p
    · subst hp
      refine (Store.ends_delete_drops hq₂ hgone.derivable hown).mono ?_ fun _ _ => trivial
      rintro _ w₃ ⟨q₃, hq₃, hlast⟩
      refine (ends_pure _).2 ⟨rfl, q₃, hq₃, hlast.info.trans hgone.info, hlast.derivable,
        fun x l ha => ?_⟩
      rw [hlast.stores x l ((Parameter.apart_congr hgone.info).2 ha), hgone.stores x l ha]
      simp only [List.mem_append, List.mem_singleton, or_true, true_and]
      tauto
    · refine (Store.ends_other (Store.moves_delete p' _) (fun hnone =>
        Store.ends_query_bind_of_missing hnone) hp hq₂).mono ?_ fun _ _ => trivial
      intro _ w₃ hq₃
      refine (ends_pure _).2 ⟨rfl, q₂, hq₃, hgone.info, hgone.derivable, fun x l ha => ?_⟩
      simpa [Ne.symm hp] using hgone.stores x l ha
  · rintro _ w₂ ⟨q₂, hq₂, hdrops⟩
    exact (ends_modifyModel _).2 ⟨q₂, hq₂, hdrops⟩

end Modeling

/-- Adding a measure with a label of its own, adding supports under other labels and deleting the
measure again leaves, apart from derived supports, the pairs of values and labels that adding those
supports alone leaves. -/
theorem storesLike_iff_of_cancelled [LawfulScalar α] (h : Requested m) {function : Handle}
    {data : MeasureData α} {name : String} (hkind : data.label.kind = .uniqueMeasure)
    (hown : data.label.isSelector = false)
    (hfresh : ∀ p q, m.parameter (.given p) = .ok q → ∀ x, ¬ q.supports.Stores x data.label)
    {requests : List (Request α)} (hadds : ∀ request ∈ requests, request.Adds data.label)
    {e e' : Environment α} {ref : Ref} {w w' : Workspace α} {m₁ m₂ : Model α}
    (hadd : Modeling.addMeasure function data name ⟨e, m⟩ = .ok ref w)
    (hbetween : Request.Leads w.model requests m₁)
    (hdelete : Modeling.deleteMeasure (.given ref) ⟨e', m₁⟩ = .ok () w')
    (halone : Request.Leads m requests m₂) :
    ∀ p q, m.parameter (.given p) = .ok q → ∃ q₁ q₂, w'.model.parameter (.given p) = .ok q₁ ∧
      m₂.parameter (.given p) = .ok q₂ ∧ ∀ x l, q.Apart l →
        (q₁.supports.StoresLike x l ↔ q₂.supports.StoresLike x l) := by
  intro p q hq
  have hd := Parameter.derivable_of_requested h p q hq
  obtain ⟨⟨measure, hmeasure, rfl⟩, qa, puts, hqa, hadded, hputs⟩ :=
    (Modeling.ends_addMeasure_gathers (w := ⟨e, m⟩) h.sound hq hd function data name).of_ok hadd
  obtain ⟨qb, hqb, hgathered⟩ := Request.gathers_of_leads hbetween hadds hqa hadded.derivable
  have hmeasure₁ := (Request.sameObjects_of_leads hbetween hadds).measure.2 hmeasure
  obtain ⟨q₁, hq₁, hdropped⟩ := (Modeling.ends_deleteMeasure_drops (w := ⟨e', m₁⟩) hmeasure₁ hkind
    hown hqb hgathered.derivable).of_ok hdelete
  obtain ⟨q₂, hq₂, halone⟩ := Request.gathers_of_leads halone hadds hq hd
  refine ⟨q₁, q₂, hq₁, hq₂, fun x l ha => ?_⟩
  have haa := (Parameter.apart_congr hadded.info).2 ha
  have hab := (Parameter.apart_congr hgathered.info).2 haa
  -- what the requests put in does not depend on the measure
  have hsame : (∃ request ∈ requests, request.Puts p qa x l) ↔
      ∃ request ∈ requests, request.Puts p q x l := by
    simp only [Request.puts_congr hadded.digits hadded.domain]
  rw [hdropped.stores x l hab, hgathered.stores x l haa, hadded.stores x l ha, halone.stores x l ha,
    hsame]
  by_cases hμ : l = measure.data.label
  · -- only the measure puts pairs in under its label, on its parameters, and there they are dropped
    subst hμ
    have hbefore : ¬ q.supports.StoresLike x measure.data.label := fun ⟨y, hy, _⟩ =>
      hfresh p q hq y hy
    have hnone : ¬ ∃ request ∈ requests, request.Puts p q x measure.data.label :=
      fun ⟨request, hmem, hreq⟩ => (hadds request hmem).not_puts hreq
    simpa [hbefore, hnone] using fun h => (hputs x measure.data.label h).2
  · have hother : ¬ puts x l := fun h => hμ (hputs x l h).1
    simp [hother, hμ]

/-- A measure at a derived support and at a new value, which takes derived supports away. In
between, its new value is added by hand as well, derived supports come back, and one of them gains a
label. -/
theorem storesLike_iff_of_cancelled_derived :
    let p : Ref := ⟨0, .parameter, 1⟩
    let x : Ref := ⟨0, .infiniteVariable, 1⟩
    let m : Model ℚ := Request.replay { id := 0 }
      [.addParameter (.scalar (.interval 0 1)) "t" (some [0, 1]) 0 (some 6)
        (.finiteDifference .backward),
      .addInfiniteVariable "x" [.given p] none none .none false,
      .setGenerativeInfo p (.given (.uniform [1 / 4, 1 / 2] .collocation)),
      .addGenerativeSupports p]
    let data : MeasureData ℚ :=
      ⟨[p], [1 / 2, 1 / 2], [[1 / 2, 3 / 4]], [], .ofMeasure 1, .unit, "mean"⟩
    let requests : List (Request ℚ) :=
      [.addSupports p [3 / 4, 1 / 8] (.given .userDefined) true, .addGenerativeSupports p,
      .addSupports p [1 / 2] (.given .uniformGrid) false]
    Requested m ∧
      (∀ p q, m.parameter (.given p) = .ok q → ∀ x, ¬ q.supports.Stores x data.label) ∧
      (∀ request ∈ requests, request.Adds data.label) ∧
      ∃ ref w w', Modeling.addMeasure (.given x) data "mean" ⟨{}, m⟩ = .ok ref w ∧
        Modeling.deleteMeasure (.given ref) ⟨{}, Request.replay w.model requests⟩ = .ok () w' ∧
        ∀ p q, m.parameter (.given p) = .ok q → ∃ q₁ q₂,
          w'.model.parameter (.given p) = .ok q₁ ∧
          (Request.replay m requests).parameter (.given p) = .ok q₂ ∧ ∀ x l, q.Apart l →
            (q₁.supports.StoresLike x l ↔ q₂.supports.StoresLike x l) := by
  intro p x m data requests
  have hr : Requested m := .replay (.start 0 "model") _
  have hnone : ∀ q ∈ m.parameters.objects, ∀ s ∈ q.supports.supports, data.label ∉ s.labels := by
    decide +kernel
  have hfresh : ∀ p q, m.parameter (.given p) = .ok q →
      ∀ x, ¬ q.supports.Stores x data.label := by
    rintro p q hq x ⟨s, hs, -, hl⟩
    exact hnone q (Table.mem_objects_of_get? (Model.parameter_eq_ok.1 hq).2.2) s hs hl
  have hadds : ∀ request ∈ requests, request.Adds data.label := by
    simp [requests, Request.Adds, data, Label.userDefined, Label.uniformGrid, Label.ofMeasure]
  have hruns : Ends (Modeling.addMeasure (.given x) data "mean") ⟨{}, m⟩
      (fun ref w => Ends (Modeling.deleteMeasure (.given ref))
        ⟨{}, Request.replay w.model requests⟩ (fun _ _ => True) fun _ => False)
      fun _ => False := by decide +kernel
  obtain ⟨ref, w, hadd, hdeletes⟩ := hruns.exists_ok
  obtain ⟨_, w', hdelete, -⟩ := hdeletes.exists_ok
  exact ⟨hr, hfresh, hadds, ref, w, w', hadd, hdelete, storesLike_iff_of_cancelled hr rfl rfl hfresh
    hadds hadd (Request.leads_replay _ _) hdelete (Request.leads_replay _ _)⟩

end Discretization
