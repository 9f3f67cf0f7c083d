import Discretization.Proofs.Checks
import Discretization.Workspace
import Mathlib.Order.Defs.Unbundled

/-!
# Runs of State Transformers

Operations, environment actions and transcription steps are state transformers that leave a state
behind also when they fail. `Ends` says what holds after a run, whichever way it ends, and has one
rule per construct, so a goal about an operation becomes a goal about its steps. `Moves` relates the
state before and after a run by a preorder, which composes without a look at the states between.

## Main definitions

* `Ends`: what holds after a run, by whether it succeeded;
* `Moves`: the states before and after every run are related.

## Main results

* `ends_bind`, `Ends.forIn`: a sequence and a loop, step by step;
* `Moves.bind`, `Moves.forIn`: a preorder that every step keeps is kept by the run.
-/

namespace Discretization

variable {ε σ β γ : Type}

namespace EStateM

variable {x : EStateM ε σ β} {f : β → EStateM ε σ γ} {s s' : σ}

theorem bind_eq_ok {c : γ} :
    (x >>= f) s = .ok c s' ↔ ∃ b s₁, x s = .ok b s₁ ∧ f b s₁ = .ok c s' := by
  change EStateM.bind x f s = _ ↔ _
  unfold EStateM.bind
  cases x s with
  | ok b s₁ => simp
  | error e s₁ => simp

/-- A sequence goes on where its first part ends. -/
theorem bind_of_ok {b : β} (h : x s = .ok b s') : (x >>= f) s = f b s' := by
  change EStateM.bind x f s = _
  rw [EStateM.bind, h]

/-- A sequence fails where its first part does. -/
theorem bind_of_error {e : ε} (h : x s = .error e s') : (x >>= f) s = .error e s' := by
  change EStateM.bind x f s = _
  rw [EStateM.bind, h]

end EStateM

/-- What holds after the run of a state transformer: `ok` of the result and the state if it
succeeds, `fail` of the state if it fails. -/
def Ends (x : EStateM ε σ β) (s : σ) (ok : β → σ → Prop) (fail : σ → Prop) : Prop :=
  match x s with
  | .ok b s' => ok b s'
  | .error _ s' => fail s'

section Rules

variable {ok : β → σ → Prop} {fail : σ → Prop} {s : σ}

theorem Ends.of_ok {x : EStateM ε σ β} {b : β} {s' : σ} (h : Ends x s ok fail)
    (hx : x s = .ok b s') : ok b s' := by
  rw [Ends, hx] at h
  exact h

theorem Ends.of_error {x : EStateM ε σ β} {e : ε} {s' : σ} (h : Ends x s ok fail)
    (hx : x s = .error e s') : fail s' := by
  rw [Ends, hx] at h
  exact h

/-- A run that does not fail succeeds. -/
theorem Ends.exists_ok {x : EStateM ε σ β} (h : Ends x s ok fun _ => False) :
    ∃ b s', x s = .ok b s' ∧ ok b s' := by
  rw [Ends] at h
  split at h
  · exact ⟨_, _, ‹_›, h⟩
  · exact h.elim

/-- How a run ends can be computed. -/
instance [∀ b s, Decidable (ok b s)] [DecidablePred fail] (x : EStateM ε σ β) (s : σ) :
    Decidable (Ends x s ok fail) :=
  show Decidable (match x s with | .ok b s' => ok b s' | .error _ s' => fail s') from
    match x s with
    | .ok b s' => inferInstanceAs (Decidable (ok b s'))
    | .error _ s' => inferInstanceAs (Decidable (fail s'))

/-- What a run is known to end in can be weakened. -/
theorem Ends.mono {x : EStateM ε σ β} {ok' : β → σ → Prop} {fail' : σ → Prop}
    (h : Ends x s ok fail) (hok : ∀ b s', ok b s' → ok' b s') (hfail : ∀ s', fail s' → fail' s') :
    Ends x s ok' fail' := by
  unfold Ends at h ⊢
  split at h
  · exact hok _ _ h
  · exact hfail _ h

/-- What is said of a run can depend on how it went. -/
theorem Ends.of_run {x : EStateM ε σ β} (hok : ∀ b s', x s = .ok b s' → ok b s')
    (hfail : ∀ e s', x s = .error e s' → fail s') : Ends x s ok fail := by
  unfold Ends
  split
  · exact hok _ _ ‹_›
  · exact hfail _ _ ‹_›

theorem Ends.of_forall {x : EStateM ε σ β} (hok : ∀ b s', ok b s') (hfail : ∀ s', fail s') :
    Ends x s ok fail :=
  .of_run (fun b s' _ => hok b s') fun _ s' _ => hfail s'

theorem Ends.and {x : EStateM ε σ β} {ok' : β → σ → Prop} {fail' : σ → Prop}
    (h : Ends x s ok fail) (h' : Ends x s ok' fail') :
    Ends x s (fun b s' => ok b s' ∧ ok' b s') (fun s' => fail s' ∧ fail' s') := by
  unfold Ends at *
  split at h <;> rename_i hx <;> rw [hx] at h' <;> exact ⟨h, h'⟩

@[simp]
theorem ends_pure (b : β) : Ends (pure b : EStateM ε σ β) s ok fail ↔ ok b s := Iff.rfl

@[simp]
theorem ends_throw (e : ε) : Ends (throw e : EStateM ε σ β) s ok fail ↔ fail s := Iff.rfl

@[simp]
theorem ends_get {ok : σ → σ → Prop} :
    Ends (get : EStateM ε σ σ) s ok fail ↔ ok s s := Iff.rfl

@[simp]
theorem ends_modify {ok : PUnit → σ → Prop} (f : σ → σ) :
    Ends (modify f : EStateM ε σ PUnit) s ok fail ↔ ok ⟨⟩ (f s) := Iff.rfl

/-- A sequence ends as its second part does where the first one left off. -/
@[simp]
theorem ends_bind {ok : γ → σ → Prop} (x : EStateM ε σ β) (f : β → EStateM ε σ γ) :
    Ends (x >>= f) s ok fail ↔ Ends x s (fun b s' => Ends (f b) s' ok fail) fail := by
  change Ends (EStateM.bind x f) s ok fail ↔ _
  unfold Ends EStateM.bind
  cases x s <;> rfl

@[simp]
theorem ends_ite {c : Prop} [Decidable c] (x y : EStateM ε σ β) :
    Ends (if c then x else y) s ok fail ↔
      (c → Ends x s ok fail) ∧ (¬ c → Ends y s ok fail) := by
  split <;> simp [*]

/-- A loop keeps what each turn hands on from the items gone through to one more. -/
theorem Ends.forIn {xs : List γ} {body : γ → PUnit → EStateM ε σ (ForInStep PUnit)}
    (inv : List γ → σ → Prop) (h : inv [] s)
    (hstep : ∀ gone x rest s', xs = gone ++ x :: rest → inv gone s' →
      Ends (body x ⟨⟩) s' (fun r s'' => r = .yield ⟨⟩ ∧ inv (gone ++ [x]) s'') fail) :
    Ends (forIn xs PUnit.unit body) s (fun _ s' => inv xs s') fail := by
  -- the items gone through move from the list to the invariant one by one
  have go : ∀ (rest gone : List γ) (s' : σ), xs = gone ++ rest → inv gone s' →
      Ends (ForIn.forIn rest PUnit.unit body) s' (fun _ s'' => inv xs s'') fail := by
    intro rest
    induction rest with
    | nil =>
      intro gone s' hxs hinv
      rw [List.append_nil] at hxs
      rw [List.forIn_nil, ends_pure]
      exact hxs ▸ hinv
    | cons x rest ih =>
      intro gone s' hxs hinv
      rw [List.forIn_cons, ends_bind]
      refine (hstep gone x rest s' hxs hinv).mono ?_ fun _ h => h
      rintro r s'' ⟨rfl, hinv'⟩
      exact ih (gone ++ [x]) s'' (by rw [hxs, List.append_assoc]; rfl) hinv'
  exact go xs [] s rfl h

/-- A fold hands on what each turn does, from the items gone through to one more. -/
theorem Ends.foldlM {xs : List γ} {f : β → γ → EStateM ε σ β} {b : β}
    (inv : List γ → β → σ → Prop) (h : inv [] b s)
    (hstep : ∀ gone x rest b s', xs = gone ++ x :: rest → inv gone b s' →
      Ends (f b x) s' (fun b' s'' => inv (gone ++ [x]) b' s'') fail) :
    Ends (xs.foldlM f b) s (fun b' s' => inv xs b' s') fail := by
  -- the items gone through move from the list to the invariant, as in a loop
  have go : ∀ (rest gone : List γ) (b : β) (s' : σ), xs = gone ++ rest → inv gone b s' →
      Ends (rest.foldlM f b) s' (fun b' s'' => inv xs b' s'') fail := by
    intro rest
    induction rest with
    | nil =>
      intro gone b s' hxs hinv
      rw [List.append_nil] at hxs
      rw [List.foldlM_nil, ends_pure]
      exact hxs ▸ hinv
    | cons x rest ih =>
      intro gone b s' hxs hinv
      rw [List.foldlM_cons, ends_bind]
      refine (hstep gone x rest b s' hxs hinv).mono (fun b' s'' hinv' => ?_) fun _ h => h
      exact ih (gone ++ [x]) b' s'' (by rw [hxs, List.append_assoc]; rfl) hinv'
  exact go xs [] b s rfl h

/-- A map over steps that relate each item to its result gives a list of related results, as long
as the states in between are good. -/
theorem Ends.mapM {xs : List γ} {f : γ → EStateM ε σ β} (good : σ → Prop)
    {R : γ → β → Prop} (h : good s)
    (hstep : ∀ x ∈ xs, ∀ s', good s' → Ends (f x) s' (fun b s'' => good s'' ∧ R x b) fail) :
    Ends (xs.mapM f) s (fun bs s' => good s' ∧ List.Forall₂ R xs bs) fail := by
  induction xs generalizing s with
  | nil =>
    rw [List.mapM_nil, ends_pure]
    exact ⟨h, .nil⟩
  | cons x rest ih =>
    rw [List.mapM_cons, ends_bind]
    refine (hstep x List.mem_cons_self s h).mono (fun b s' hb => ?_) fun _ h => h
    rw [ends_bind]
    refine (ih hb.1 fun y hy => hstep y (List.mem_cons_of_mem x hy)).mono (fun bs s'' hbs => ?_)
      fun _ h => h
    exact (ends_pure _).2 ⟨hbs.1, .cons hb.2 hbs.2⟩

end Rules

/-- The states before and after every run are related, by the second relation if the run fails; that
is the first one if nothing else is said. -/
structure Moves (R : σ → σ → Prop) (x : EStateM ε σ β) (F : σ → σ → Prop := R) : Prop where
  ends : ∀ s, Ends x s (fun _ s' => R s s') (fun s' => F s s')

/-- A failure may come at once, and after steps that succeed. -/
class Absorbs (R F : σ → σ → Prop) : Prop where
  refl (s : σ) : F s s
  step {s s' s'' : σ} : R s s' → F s' s'' → F s s''

instance {R : σ → σ → Prop} [IsPreorder σ R] : Absorbs R R where
  refl := refl_of R
  step := trans_of R

/-- Nothing is said of failures. -/
instance {R : σ → σ → Prop} : Absorbs R fun _ _ => True where
  refl _ := trivial
  step _ _ := trivial

/-- A property of states that every run keeps relates the states before and after. -/
theorem Moves.of_keeps {P : σ → Prop} {x : EStateM ε σ β}
    (h : ∀ s, P s → Ends x s (fun _ s' => P s') P) : Moves (fun s s' => P s → P s') x := by
  refine ⟨fun s => ?_⟩
  by_cases hs : P s
  · exact (h s hs).mono (fun _ _ h' _ => h') fun _ h' _ => h'
  · exact .of_forall (fun _ _ h' => absurd h' hs) fun _ h' => absurd h' hs

/-- The same where nothing is said of failures. -/
theorem Moves.of_keeps_ok {P : σ → Prop} {x : EStateM ε σ β}
    (h : ∀ s, P s → Ends x s (fun _ s' => P s') fun _ => True) :
    Moves (fun s s' => P s → P s') x fun _ _ => True := by
  refine ⟨fun s => ?_⟩
  by_cases hs : P s
  · exact (h s hs).mono (fun _ _ h' _ => h') fun _ h' => h'
  · exact .of_forall (fun _ _ h' => absurd h' hs) fun _ => trivial

section Preorders

variable {R F : σ → σ → Prop}

theorem Moves.mono {R' : σ → σ → Prop} {x : EStateM ε σ β} (h : Moves R x)
    (himp : ∀ s s', R s s' → R' s s') : Moves R' x :=
  ⟨fun s => (h.ends s).mono (fun _ => himp s) (himp s)⟩

theorem Moves.modify {f : σ → σ} (h : ∀ s, R s (f s)) :
    Moves R (modify f : EStateM ε σ PUnit) F :=
  ⟨fun s => ends_modify f |>.2 (h s)⟩

theorem Moves.ite {c : Prop} [Decidable c] {x y : EStateM ε σ β} (hx : Moves R x F)
    (hy : Moves R y F) : Moves R (if c then x else y) F := by
  split <;> assumption

theorem Moves.throw [Absorbs R F] (e : ε) : Moves R (throw e : EStateM ε σ β) F :=
  ⟨fun s => ends_throw e |>.2 (Absorbs.refl R s)⟩

/-- Nothing follows a failure. -/
theorem Moves.throw_bind [Absorbs R F] (e : ε) (f : β → EStateM ε σ γ) :
    Moves R ((MonadExcept.throw e : EStateM ε σ β) >>= f) F :=
  ⟨fun s => (ends_bind _ f).2 ((ends_throw e).2 (Absorbs.refl R s))⟩

variable [IsPreorder σ R]

theorem Moves.pure (b : β) : Moves R (pure b : EStateM ε σ β) F :=
  ⟨fun s => ends_pure b |>.2 (refl_of R s)⟩

theorem Moves.get : Moves R (get : EStateM ε σ σ) F :=
  ⟨fun s => ends_get.2 (refl_of R s)⟩

variable [Absorbs R F]

theorem Moves.bind {x : EStateM ε σ β} {f : β → EStateM ε σ γ} (hx : Moves R x F)
    (hf : ∀ b, Moves R (f b) F) : Moves R (x >>= f) F := by
  refine ⟨fun s => ?_⟩
  rw [ends_bind]
  refine (hx.ends s).mono (fun b s' hs => ?_) fun _ hs => hs
  exact ((hf b).ends s').mono (fun _ _ hs' => trans_of R hs hs') fun _ hs' => Absorbs.step hs hs'

theorem Moves.forIn_of_mem {xs : List γ} {body : γ → β → EStateM ε σ (ForInStep β)}
    (h : ∀ x ∈ xs, ∀ b, Moves R (body x b) F) (b : β) : Moves R (forIn xs b body) F := by
  induction xs generalizing b with
  | nil =>
    rw [List.forIn_nil]
    exact .pure b
  | cons x rest ih =>
    rw [List.forIn_cons]
    refine (h x List.mem_cons_self b).bind fun r => ?_
    cases r with
    | done b => exact .pure b
    | yield b => exact ih (fun y hy => h y (List.mem_cons_of_mem x hy)) b

theorem Moves.forIn {xs : List γ} {body : γ → β → EStateM ε σ (ForInStep β)}
    (h : ∀ x b, Moves R (body x b) F) (b : β) : Moves R (forIn xs b body) F :=
  .forIn_of_mem (fun x _ => h x) b

theorem Moves.mapM {xs : List γ} {f : γ → EStateM ε σ β} (h : ∀ x, Moves R (f x) F) :
    Moves R (xs.mapM f) F := by
  induction xs with
  | nil =>
    rw [List.mapM_nil]
    exact .pure _
  | cons x rest ih =>
    rw [List.mapM_cons]
    exact (h x).bind fun _ => ih.bind fun _ => .pure _

omit [Absorbs R F] in
/-- A map over steps that keep to a preorder gives a list of results that are related to their items
in the end, if what relates them is not lost on the way. -/
theorem Ends.mapM_of_moves {xs : List γ} {f : γ → EStateM ε σ β} {P : γ → β → σ → Prop}
    {fail : σ → Prop} (hkeep : ∀ x b s s', R s s' → P x b s → P x b s') {s : σ}
    (hstep : ∀ x ∈ xs, ∀ s', R s s' → Ends (f x) s' (fun b s'' => R s' s'' ∧ P x b s'') fail) :
    Ends (xs.mapM f) s (fun bs s' => R s s' ∧ List.Forall₂ (fun x b => P x b s') xs bs) fail := by
  induction xs generalizing s with
  | nil =>
    rw [List.mapM_nil, ends_pure]
    exact ⟨refl_of R s, .nil⟩
  | cons x rest ih =>
    rw [List.mapM_cons, ends_bind]
    refine (hstep x List.mem_cons_self s (refl_of R s)).mono ?_ fun _ h => h
    rintro b s₁ ⟨h₁, hb⟩
    rw [ends_bind]
    refine (ih fun y hy s' h' => hstep y (List.mem_cons_of_mem x hy) s'
      (trans_of R h₁ h')).mono ?_ fun _ h => h
    -- the first result was related to its item before the rest was run
    rintro bs s₂ ⟨h₂, hbs⟩
    exact (ends_pure _).2 ⟨trans_of R h₁ h₂, .cons (hkeep x b s₁ s₂ h₂ hb) hbs⟩

theorem Moves.foldlM {xs : List γ} {f : β → γ → EStateM ε σ β} (h : ∀ b x, Moves R (f b x) F)
    (b : β) : Moves R (xs.foldlM f b) F := by
  induction xs generalizing b with
  | nil => exact .pure b
  | cons x rest ih =>
    rw [List.foldlM_cons]
    exact (h b x).bind ih

end Preorders

/-- The workspace with one more warning in its journal. -/
def Workspace.withWarning {α : Type} (w : Workspace α) (warning : Warning) : Workspace α :=
  let journal := w.environment.journal
  { w with environment := { w.environment with
      journal := { journal with warnings := journal.warnings ++ [warning] } } }

namespace Operation

variable {α : Type} {w : Workspace α} {ok : β → Workspace α → Prop} {fail : Workspace α → Prop}

@[simp]
theorem ends_check (result : Except (Error α) β) :
    Ends (check result) w ok fail ↔
      (∀ b, result = .ok b → ok b w) ∧ (∀ e, result = .error e → fail w) := by
  cases result <;> simp [check]

@[simp]
theorem ends_model {ok : Model α → Workspace α → Prop} :
    Ends (model : Operation α (Model α)) w ok fail ↔ ok w.model w := Iff.rfl

@[simp]
theorem ends_modifyModel {ok : Unit → Workspace α → Prop} (f : Model α → Model α) :
    Ends (modifyModel f) w ok fail ↔ ok () { w with model := f w.model } := Iff.rfl

@[simp]
theorem ends_query (f : Model α → Except (Error α) β) :
    Ends (query f) w ok fail ↔
      (∀ b, f w.model = .ok b → ok b w) ∧ (∀ e, f w.model = .error e → fail w) := by
  rw [query, ends_bind, ends_model, ends_check]

/-- A check that is known to succeed. -/
theorem ends_check_of {result : Except (Error α) β} {b : β} (h : result = .ok b) :
    Ends (check result) w ok fail ↔ ok b w := by
  rw [h]
  exact ends_pure b

/-- A look-up that is known to succeed. -/
theorem ends_query_of {f : Model α → Except (Error α) β} {b : β} (h : f w.model = .ok b) :
    Ends (query f) w ok fail ↔ ok b w := by
  rw [query, ends_bind, ends_model, ends_check_of h]

/-- An operation on the environment leaves the model alone. -/
theorem ends_onEnvironment (action : EnvironmentAction α β) :
    Ends (onEnvironment action) w ok fail ↔
      Ends action w.environment (fun b e => ok b { w with environment := e })
        fun e => fail { w with environment := e } := by
  unfold Ends onEnvironment
  cases action w.environment <;> rfl

theorem onEnvironment_eq_ok {action : EnvironmentAction α β} {b : β} {e : Environment α}
    (h : action w.environment = .ok b e) :
    onEnvironment action w = .ok b { w with environment := e } := by
  rw [onEnvironment, h]

/-- A look-up that succeeds hands on what it found. -/
theorem query_bind_eq {f : Model α → Except (Error α) β} {g : β → Operation α γ} {b : β}
    (h : f w.model = .ok b) : (query f >>= g) w = g b w := by
  have hquery : query f w = .ok b w := by
    change check (f w.model) w = _
    rw [h]
    rfl
  exact EStateM.bind_of_ok hquery

/-- The model of the moment is handed on. -/
theorem model_bind_eq (g : Model α → Operation α γ) : (model >>= g) w = g w.model w := rfl

@[simp]
theorem ends_warn {ok : Unit → Workspace α → Prop} (warning : Warning) :
    Ends (warn warning) w ok fail ↔ ok () (w.withWarning warning) := Iff.rfl

/-- A change is made as a whole or not at all. -/
@[simp]
theorem ends_change (f : Model α → Except (Error α) (β × Model α)) :
    Ends (change f) w ok fail ↔
      (∀ b m, f w.model = .ok (b, m) → ok b { w with model := m }) ∧
        (∀ e, f w.model = .error e → fail w) := by
  rw [change, ends_bind, ends_query]
  constructor
  · rintro ⟨h₁, h₂⟩
    exact ⟨fun b m hf => h₁ (b, m) hf, h₂⟩
  · rintro ⟨h₁, h₂⟩
    exact ⟨fun r hf => h₁ r.1 r.2 hf, h₂⟩

section Preorders

variable {R : Workspace α → Workspace α → Prop} [IsPreorder (Workspace α) R]

theorem moves_check (result : Except (Error α) β) : Moves R (check result) :=
  ⟨fun w => (ends_check result).2 ⟨fun _ _ => refl_of R w, fun _ _ => refl_of R w⟩⟩

theorem moves_check_bind {result : Except (Error α) β} {f : β → Operation α γ}
    (h : ∀ b, result = .ok b → Moves R (f b)) : Moves R (check result >>= f) := by
  refine ⟨fun w => ?_⟩
  rw [ends_bind, ends_check]
  exact ⟨fun b hb => (h b hb).ends w, fun _ _ => refl_of R w⟩

theorem moves_model : Moves R (model : Operation α (Model α)) :=
  ⟨fun w => ends_model.2 (refl_of R w)⟩

theorem moves_query (f : Model α → Except (Error α) β) : Moves R (query f) :=
  ⟨fun w => (ends_query f).2 ⟨fun _ _ => refl_of R w, fun _ _ => refl_of R w⟩⟩

end Preorders

end Operation

-- a run is taken apart by the rules above and never unfolded
attribute [irreducible] Ends

end Discretization
