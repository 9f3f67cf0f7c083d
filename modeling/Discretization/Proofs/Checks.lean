import Mathlib.Data.List.Forall2

/-!
# Successful Checks

A check gives a result or fails. These lemmas say when checks in sequence, or one for each item of a
list, succeed, and with what.
-/

namespace Discretization

variable {ε β γ : Type}

namespace Except

@[simp]
theorem bind_eq_ok {x : Except ε β} {f : β → Except ε γ} {c : γ} :
    x >>= f = .ok c ↔ ∃ b, x = .ok b ∧ f b = .ok c := by
  cases x with
  | error e => simp [bind, Except.bind]
  | ok b => simp [bind, Except.bind]

/-- A sequence fails where its first or its second part does. -/
theorem bind_eq_error {x : Except ε β} {f : β → Except ε γ} {e : ε} :
    x >>= f = .error e ↔ x = .error e ∨ ∃ b, x = .ok b ∧ f b = .error e := by
  cases x with
  | error e => simp [bind, Except.bind]
  | ok b => simp [bind, Except.bind]

@[simp]
theorem pure_eq_ok {b c : β} : (pure b : Except ε β) = .ok c ↔ b = c :=
  ⟨fun h => by cases h; rfl, fun h => h ▸ rfl⟩

@[simp]
theorem throw_ne_ok {e : ε} {c : β} : ¬ (throw e : Except ε β) = .ok c := nofun

theorem throw_bind_ne_ok {e : ε} {f : β → Except ε γ} {c : γ} : ¬ throw e >>= f = .ok c := nofun

/-- Whether a check succeeds with a result of some kind can be computed. -/
theorem exists_of_decide {x : Except ε β} (p : β → Prop) [DecidablePred p]
    (h : (x.toOption.any fun b => decide (p b)) = true) : ∃ b, x = .ok b ∧ p b := by
  cases x with
  | error e => cases h
  | ok b => exact ⟨b, rfl, of_decide_eq_true h⟩

theorem eq_ok_of_toOption {x : Except ε β} {b : β} (h : x.toOption = some b) : x = .ok b := by
  cases x with
  | error e => cases h
  | ok b' => exact congrArg Except.ok (Option.some.inj h)

/-- One check per item succeeds with the list of their results. -/
theorem mapM_eq_ok {f : β → Except ε γ} {xs : List β} {ys : List γ} :
    xs.mapM f = .ok ys ↔ List.Forall₂ (fun x y => f x = .ok y) xs ys := by
  induction xs generalizing ys with
  | nil => rw [List.mapM_nil, pure_eq_ok, List.forall₂_nil_left_iff, eq_comm]
  | cons x rest ih =>
    rw [List.mapM_cons, bind_eq_ok]
    constructor
    · rintro ⟨y, hy, h⟩
      obtain ⟨zs, hzs, h⟩ := bind_eq_ok.1 h
      rw [pure_eq_ok] at h
      subst h
      exact .cons hy (ih.1 hzs)
    · rintro (_ | ⟨hy, hzs⟩)
      exact ⟨_, hy, bind_eq_ok.2 ⟨_, ih.2 hzs, rfl⟩⟩

/-- One check per item fails as the check of an item does. -/
theorem exists_of_mapM_eq_error {f : β → Except ε γ} {xs : List β} {e : ε}
    (h : xs.mapM f = .error e) : ∃ x ∈ xs, f x = .error e := by
  induction xs with
  | nil => cases h
  | cons x rest ih =>
    rw [List.mapM_cons, bind_eq_error] at h
    rcases h with h | ⟨y, -, h⟩
    · exact ⟨x, List.mem_cons_self, h⟩
    · rcases bind_eq_error.1 h with h | ⟨ys, -, h⟩
      · obtain ⟨x', hx', h⟩ := ih h
        exact ⟨x', List.mem_cons_of_mem x hx', h⟩
      · cases h

end Except

/-- Values that are all there make a list. -/
theorem mapM_eq_some {f : β → Option γ} {xs : List β} {ys : List γ}
    (h : List.Forall₂ (fun x y => f x = some y) xs ys) : xs.mapM f = some ys := by
  induction h with
  | nil => rfl
  | cons hxy _ ih =>
    rw [List.mapM_cons, hxy, ih]
    rfl

/-- What holds of every item of the second of two lists can be added to their relation. -/
theorem forall₂_and_right {R : β → γ → Prop} {P : γ → Prop} {xs : List β} {ys : List γ}
    (h : List.Forall₂ R xs ys) (hP : ∀ y ∈ ys, P y) :
    List.Forall₂ (fun x y => R x y ∧ P y) xs ys := by
  induction h with
  | nil => exact .nil
  | cons hxy _ ih =>
    exact .cons ⟨hxy, hP _ List.mem_cons_self⟩ (ih fun y hy => hP y (List.mem_cons_of_mem _ hy))

/-- An item of the second of two lists that are related item by item is related to one of the
first. -/
theorem exists_left_of_mem {R : β → γ → Prop} {xs : List β} {ys : List γ}
    (h : List.Forall₂ R xs ys) {y : γ} (hy : y ∈ ys) : ∃ x ∈ xs, R x y := by
  induction h with
  | nil => cases hy
  | cons hxy _ ih =>
    rcases List.mem_cons.1 hy with rfl | hy
    · exact ⟨_, List.mem_cons_self, hxy⟩
    · obtain ⟨x, hx, hR⟩ := ih hy
      exact ⟨x, List.mem_cons_of_mem _ hx, hR⟩

/-- A list of images item by item. -/
theorem eq_map_of_forall₂ {f : β → γ} {xs : List β} {ys : List γ}
    (h : List.Forall₂ (fun x y => y = f x) xs ys) : ys = xs.map f := by
  induction h with
  | nil => rfl
  | cons hxy _ ih => rw [List.map_cons, hxy, ih]

theorem exists_right_of_mem {R : β → γ → Prop} {xs : List β} {ys : List γ}
    (h : List.Forall₂ R xs ys) {x : β} (hx : x ∈ xs) : ∃ y ∈ ys, R x y :=
  exists_left_of_mem h.flip hx

/-- What is related to a pair of lists item by item comes from the items of the second list. -/
theorem exists_of_mem_zip {δ : Type} {R : β × γ → δ → Prop} {xs : List β} {ys : List γ}
    {zs : List δ} (h : List.Forall₂ R (xs.zip ys) zs) :
    ∀ pair ∈ xs.zip zs, ∃ y ∈ ys, R (pair.1, y) pair.2 := by
  -- the three lists are taken apart together
  induction xs generalizing ys zs with
  | nil => nofun
  | cons x xs ih =>
    cases ys with
    | nil =>
      cases h
      nofun
    | cons y ys =>
      cases h with
      | cons hxy hrest =>
        intro pair hpair
        rcases List.mem_cons.1 hpair with rfl | hpair
        · exact ⟨y, List.mem_cons_self, hxy⟩
        · obtain ⟨y', hy', hR⟩ := ih hrest pair hpair
          exact ⟨y', List.mem_cons_of_mem y hy', hR⟩

/-- Conversely, what an item of the second list is related to is paired with the same item of the
first. -/
theorem exists_mem_zip {δ : Type} {R : β × γ → δ → Prop} {xs : List β} {ys : List γ}
    {zs : List δ} (h : List.Forall₂ R (xs.zip ys) zs) :
    ∀ pair ∈ xs.zip ys, ∃ z, (pair.1, z) ∈ xs.zip zs ∧ R pair z := by
  induction xs generalizing ys zs with
  | nil => nofun
  | cons x xs ih =>
    cases ys with
    | nil => nofun
    | cons y ys =>
      cases h with
      | @cons _ z _ _ hxy hrest =>
        intro pair hpair
        rcases List.mem_cons.1 hpair with rfl | hpair
        · exact ⟨z, List.mem_cons_self, hxy⟩
        · obtain ⟨z', hz', hR⟩ := ih hrest pair hpair
          exact ⟨z', List.mem_cons_of_mem _ hz', hR⟩

end Discretization
