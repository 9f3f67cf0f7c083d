import Discretization.Proofs.Numbers
import Discretization.SupportMap
import Mathlib.Data.List.InsertIdx

/-!
# Ordered Supports

A support map keeps its values defined and strictly increasing: bisection then finds every stored
value, so adding a value keeps the order and taking labels away never fails. A value that is
undefined spoils this for good: it stays in the map whatever labels are taken away.

## Main definitions

* `Increasing`: defined values in strictly increasing order.
* `Ascending`: the same with undefined values at the end.
* `Support.stripped`: what is left of a support when labels are taken away.
* `SupportMap.Marks`: a stored value carries a label.

## Main results

* `SupportMap.increasing_addAll`: adding values keeps the order;
* `SupportMap.strip_eq`: on an ordered map, taking labels away treats each support on its own;
* `SupportMap.undefined_mem_strip`: an undefined value is never taken away.
-/

namespace Discretization

variable {α : Type} [Scalar α]

/-- The values are defined and strictly increasing. -/
structure Increasing (xs : List α) : Prop where
  /-- Every value is defined. -/
  defined : ∀ x ∈ xs, Scalar.Defined x
  /-- Each value is below all that follow. -/
  pairwise : xs.Pairwise (· < ·)

namespace Increasing

theorem nil : Increasing ([] : List α) :=
  ⟨by simp, .nil⟩

theorem sublist {xs ys : List α} (h : Increasing ys) (hs : xs.Sublist ys) : Increasing xs :=
  ⟨fun x hx => h.defined x (hs.subset hx), h.pairwise.sublist hs⟩

/-- Equal values of an increasing list are the same. -/
theorem eq_of_beq [LawfulScalar α] {xs : List α} (h : Increasing xs) {x y : α} (hx : x ∈ xs)
    (hy : y ∈ xs) (he : (x == y) = true) : x = y := by
  obtain ⟨i, hi, rfl⟩ := List.mem_iff_getElem.1 hx
  obtain ⟨j, hj, rfl⟩ := List.mem_iff_getElem.1 hy
  rcases Nat.lt_trichotomy i j with hlt | rfl | hgt
  · exact absurd (List.pairwise_iff_getElem.1 h.pairwise i j hi hj hlt)
      (LawfulScalar.not_lt_of_beq he)
  · rfl
  · exact absurd (List.pairwise_iff_getElem.1 h.pairwise j i hj hi hgt)
      (LawfulScalar.not_lt_of_beq (LawfulScalar.beq_symm he))

theorem nodup [LawfulScalar α] {xs : List α} (h : Increasing xs) : xs.Nodup :=
  List.Pairwise.imp (fun {x y} (hlt : x < y) (heq : x = y) =>
    Scalar.not_lt_self y (heq ▸ hlt)) h.pairwise

/-- Increasing lists of the same values are the same. -/
theorem eq_of_mem_iff [LawfulScalar α] {xs ys : List α} (hx : Increasing xs) (hy : Increasing ys)
    (h : ∀ x, x ∈ xs ↔ x ∈ ys) : xs = ys := by
  have hperm : xs.Perm ys := (List.perm_ext_iff_of_nodup hx.nodup hy.nodup).2 h
  refine hperm.eq_of_pairwise (fun x y _ _ hxy hyx => ?_) hx.pairwise hy.pairwise
  exact absurd (LawfulScalar.lt_trans hxy hyx) (Scalar.not_lt_self x)

end Increasing

/-- Defined values in strictly increasing order, and after them the undefined ones. -/
def Ascending (xs : List α) : Prop :=
  xs.Pairwise fun x y => x < y ∨ ¬ Scalar.Defined y

theorem Increasing.ascending {xs : List α} (h : Increasing xs) : Ascending xs :=
  h.pairwise.imp .inl

/-! ## Bisection -/

/-- Bisection finds the place where a condition that holds up to some position stops to hold. -/
theorem bisect_spec (goesRight : Nat → Bool) (lower upper : Nat) (hle : lower ≤ upper)
    (hmono : ∀ i j, i ≤ j → j < upper → goesRight j = true → goesRight i = true) :
    lower ≤ bisect goesRight lower upper ∧ bisect goesRight lower upper ≤ upper ∧
      (∀ i, lower ≤ i → i < bisect goesRight lower upper → goesRight i = true) ∧
      (∀ i, bisect goesRight lower upper ≤ i → i < upper → goesRight i = false) := by
  -- every turn halves the range and keeps what is known outside it
  fun_induction bisect goesRight lower upper with
  | case1 lower upper hlt middle hright ih =>
    have hmid : middle < upper := by omega
    obtain ⟨h₁, h₂, h₃, h₄⟩ := ih (by omega) hmono
    refine ⟨by omega, h₂, fun i _ hi => ?_, h₄⟩
    rcases Nat.lt_or_ge middle i with h | h
    · exact h₃ i (by omega) hi
    · exact hmono i middle h hmid hright
  | case2 lower upper hlt middle hleft ih =>
    obtain ⟨h₁, h₂, h₃, h₄⟩ := ih (by omega) fun i j hij hj => hmono i j hij (by omega)
    refine ⟨h₁, by omega, h₃, fun i hi hu => ?_⟩
    rcases Nat.lt_or_ge i middle with h | h
    · exact h₄ i hi h
    · rw [Bool.eq_false_iff]
      exact fun hr => hleft (hmono middle i h hu hr)
  | case3 lower upper hlt =>
    exact ⟨Nat.le_refl _, hle, fun i h h' => by omega, fun i h h' => by omega⟩

namespace SupportMap

omit [Scalar α] in
/-- The condition of a bisection over supports, at the value of a position. -/
theorem match_getElem? (supports : List (Support α)) (f : α → Bool) {i : Nat}
    (hi : i < supports.length) :
    (match supports[i]? with
      | some support => f support.value
      | none => false) = f (supports[i]).value := by
  rw [List.getElem?_eq_getElem hi]

/-- The supports before `positionAfter` are those whose value is not above the given one. -/
theorem positionAfter_spec [LawfulScalar α] {supports : List (Support α)}
    (h : Increasing (supports.map (·.value))) (value : α) :
    positionAfter supports value ≤ supports.length ∧
      (∀ i (hi : i < supports.length), i < positionAfter supports value →
        ¬ value < (supports[i]).value) ∧
      (∀ i (hi : i < supports.length), positionAfter supports value ≤ i →
        value < (supports[i]).value) := by
  have hpair := List.pairwise_map.1 h.pairwise
  -- the values increase, so those that are not above the given one come first
  obtain ⟨-, hle, hbefore, hafter⟩ := bisect_spec
    (fun i => match supports[i]? with
      | some support => !decide (value < support.value)
      | none => false) 0 supports.length (Nat.zero_le _) fun i j hij hj hr => by
    rw [match_getElem? supports (fun x => !decide (value < x)) hj] at hr
    rw [match_getElem? supports (fun x => !decide (value < x)) (Nat.lt_of_le_of_lt hij hj)]
    rcases Nat.eq_or_lt_of_le hij with rfl | hlt
    · exact hr
    · have hlt := List.pairwise_iff_getElem.1 hpair i j (Nat.lt_trans hlt hj) hj hlt
      simp only [Bool.not_eq_true', decide_eq_false_iff_not] at hr ⊢
      exact fun hv => hr (LawfulScalar.lt_trans hv hlt)
  refine ⟨hle, fun i hi hp => ?_, fun i hi hp => ?_⟩
  · have hr := hbefore i (Nat.zero_le _) hp
    rw [match_getElem? supports (fun x => !decide (value < x)) hi] at hr
    simpa using hr
  · have hr := hafter i hp hi
    rw [match_getElem? supports (fun x => !decide (value < x)) hi] at hr
    simpa using hr

/-- Bisection finds a defined value that is stored, also where undefined values follow the
others. -/
theorem isSome_position?_of_ascending [LawfulScalar α] {supports : List (Support α)}
    (h : Ascending (supports.map (·.value))) {support : Support α} (hs : support ∈ supports)
    (hdef : Scalar.Defined support.value) :
    (position? supports support.value).isSome = true := by
  have hpair := List.pairwise_iff_getElem.1 (List.pairwise_map.1 h)
  -- what is below a value that is stored later is below that one
  have hbelow : ∀ i j (hi : i < supports.length) (hj : j < supports.length), i < j → ∀ x,
      supports[j].value < x → supports[i].value < x := by
    intro i j hi hj hij x hx
    rcases hpair i j hi hj hij with hlt | hundef
    · exact LawfulScalar.lt_trans hlt hx
    · exact absurd (LawfulScalar.defined_of_lt hx) hundef
  obtain ⟨-, hle, hbefore, hafter⟩ := bisect_spec
    (fun i => match supports[i]? with
      | some s => decide (s.value < support.value)
      | none => false) 0 supports.length (Nat.zero_le _) fun i j hij hj hr => by
    rw [match_getElem? supports (fun x => decide (x < support.value)) hj] at hr
    rw [match_getElem? supports (fun x => decide (x < support.value))
      (Nat.lt_of_le_of_lt hij hj)]
    rcases Nat.eq_or_lt_of_le hij with rfl | hlt
    · exact hr
    · simp only [decide_eq_true_eq] at hr ⊢
      exact hbelow i j (Nat.lt_trans hlt hj) hj hlt _ hr
  obtain ⟨k, hk, rfl⟩ := List.mem_iff_getElem.1 hs
  change positionBefore supports (supports[k]).value ≤ _ at hle
  -- the position is that of the value: neither before nor after it
  have heq : positionBefore supports (supports[k]).value = k := by
    rcases Nat.lt_trichotomy (positionBefore supports (supports[k]).value) k with hlt | heq | hgt
    · have hr := hafter (positionBefore supports (supports[k]).value) (Nat.le_refl _)
        (Nat.lt_trans hlt hk)
      rw [match_getElem? supports (fun x => decide (x < (supports[k]).value))
        (Nat.lt_trans hlt hk)] at hr
      rcases hpair _ k (Nat.lt_trans hlt hk) hk hlt with hvalue | hundef
      · exact absurd hvalue (by simpa using hr)
      · exact absurd hdef hundef
    · exact heq
    · have hr := hbefore k (Nat.zero_le _) hgt
      rw [match_getElem? supports (fun x => decide (x < (supports[k]).value)) hk] at hr
      exact absurd (by simpa using hr) (Scalar.not_lt_self (supports[k]).value)
  unfold position?
  simp only [heq, List.getElem?_eq_getElem hk]
  rw [if_pos (show ((supports[k]).value == (supports[k]).value) = true from hdef)]
  rfl

/-- Bisection never finds an undefined value. -/
theorem position?_of_undefined [LawfulScalar α] (supports : List (Support α)) {value : α}
    (h : ¬ Scalar.Defined value) : position? supports value = none := by
  unfold position?
  dsimp only
  split
  · rw [if_neg]
    rw [Scalar.beq_eq_false_of_not_defined _ h]
    exact Bool.false_ne_true
  · rfl

/-! ## Adding values -/

/-- A value, up to equality, carries a label. -/
def Marks (m : SupportMap α) (value : α) (label : Label) : Prop :=
  ∃ support ∈ m.supports, (support.value == value) = true ∧ label ∈ support.labels

theorem contains_iff {m : SupportMap α} {value : α} :
    m.contains value = true ↔ ∃ x ∈ m.values, (x == value) = true := by
  simp [contains, values]

theorem add_of_contains {m : SupportMap α} {value : α} (label : Label)
    (h : m.contains value = true) :
    (m.add value label).1 = false ∧ (m.add value label).2.values = m.values := by
  rw [add, if_pos h]
  refine ⟨rfl, ?_⟩
  simp only [values, List.map_map]
  refine List.map_congr_left fun s _ => ?_
  simp only [Function.comp_apply]
  split <;> rfl

theorem insertIdx_eq {β : Type} (xs : List β) (x : β) {i : Nat} (h : i ≤ xs.length) :
    xs.insertIdx i x = xs.take i ++ x :: xs.drop i := by
  induction xs generalizing i with
  | nil =>
    obtain rfl : i = 0 := Nat.le_zero.1 h
    rfl
  | cons y ys ih =>
    cases i with
    | zero => rfl
    | succ i =>
      rw [List.insertIdx_succ_cons, ih (Nat.le_of_succ_le_succ h)]
      rfl

theorem add_of_not_contains {m : SupportMap α} {value : α} (label : Label)
    (h : m.contains value = false) :
    m.add value label =
      (true, ⟨m.supports.insertIdx (positionAfter m.supports value) ⟨value, [label]⟩⟩) := by
  rw [add, if_neg (by simp [h])]

theorem positionAfter_le (supports : List (Support α)) (value : α) :
    positionAfter supports value ≤ supports.length := by
  have bound : ∀ (f : Nat → Bool) (lower upper : Nat), lower ≤ upper →
      bisect f lower upper ≤ upper := by
    intro f lower upper hle
    fun_induction bisect f lower upper with
    | case1 lower upper hlt middle _ ih => exact ih (by omega)
    | case2 lower upper hlt middle _ ih => exact Nat.le_trans (ih (by omega)) (by omega)
    | case3 => exact hle
  exact bound _ _ _ (Nat.zero_le _)

/-- After adding a value, a support is one from before, one with the label attached, or new. -/
theorem mem_supports_add {m : SupportMap α} {s : Support α} {value : α} {label : Label}
    (hs : s ∈ (m.add value label).2.supports) :
    s ∈ m.supports ∨ (∃ s₀ ∈ m.supports, s = { s₀ with labels := label.insert s₀.labels }) ∨
      s = ⟨value, [label]⟩ := by
  -- a value that is there gains the label, any other one is inserted
  cases hc : m.contains value with
  | true =>
    rw [add, if_pos hc] at hs
    obtain ⟨s₀, hs₀, rfl⟩ := List.mem_map.1 hs
    split
    · exact .inr (.inl ⟨s₀, hs₀, rfl⟩)
    · exact .inl hs₀
  | false =>
    rw [add_of_not_contains label hc] at hs
    dsimp only at hs
    rw [List.mem_insertIdx (positionAfter_le _ _)] at hs
    exact hs.elim (fun h => .inr (.inr h)) .inl

/-- The stored values stay in their order. -/
theorem values_sublist_add (m : SupportMap α) (value : α) (label : Label) :
    m.values.Sublist (m.add value label).2.values := by
  cases h : m.contains value with
  | true =>
    rw [(add_of_contains label h).2]
  | false =>
    rw [add_of_not_contains label h]
    simp only [values]
    exact (List.sublist_insertIdx ..).map _

theorem mem_values_add {m : SupportMap α} {value x : α} {label : Label}
    (hx : x ∈ (m.add value label).2.values) : x ∈ m.values ∨ x = value := by
  cases h : m.contains value with
  | true =>
    rw [(add_of_contains label h).2] at hx
    exact .inl hx
  | false =>
    rw [add_of_not_contains label h] at hx
    simp only [values, List.mem_map] at hx ⊢
    obtain ⟨s, hs, rfl⟩ := hx
    rw [List.mem_insertIdx (positionAfter_le _ _)] at hs
    rcases hs with rfl | hs
    · exact .inr rfl
    · exact .inl ⟨s, hs, rfl⟩

/-- An added value is stored, in the form given or in an equal one. -/
theorem stores_add (m : SupportMap α) (value : α) (label : Label) :
    value ∈ (m.add value label).2.values ∨
      ∃ x ∈ (m.add value label).2.values, (x == value) = true := by
  cases h : m.contains value with
  | true =>
    rw [(add_of_contains label h).2]
    exact .inr (contains_iff.1 h)
  | false =>
    rw [add_of_not_contains label h]
    refine .inl (List.mem_map.2 ⟨⟨value, [label]⟩, ?_, rfl⟩)
    rw [List.mem_insertIdx (positionAfter_le _ _)]
    exact .inl rfl

/-- A defined value added to an increasing map keeps it increasing. -/
theorem increasing_add [LawfulScalar α] {m : SupportMap α} (h : Increasing m.values) {value : α}
    (hv : Scalar.Defined value) (label : Label) :
    Increasing (m.add value label).2.values := by
  cases hc : m.contains value with
  | true =>
    rw [(add_of_contains label hc).2]
    exact h
  | false =>
    rw [add_of_not_contains label hc]
    obtain ⟨hle, hbefore, hafter⟩ := positionAfter_spec h value
    -- no support equals the value, so "not above" becomes "below" on its left
    have hne : ∀ s ∈ m.supports, (s.value == value) = false := by
      simpa [contains] using hc
    simp only [values, insertIdx_eq _ _ hle, List.map_append, List.map_cons, List.map_take,
      List.map_drop]
    refine ⟨fun x hx => ?_, List.pairwise_append.2 ⟨h.pairwise.sublist (List.take_sublist _ _),
      List.pairwise_cons.2 ⟨fun x hx => ?_, h.pairwise.sublist (List.drop_sublist _ _)⟩,
      fun x hx y hy => ?_⟩⟩
    · rw [List.mem_append, List.mem_cons] at hx
      rcases hx with hx | rfl | hx
      · exact h.defined x (List.mem_of_mem_take hx)
      · exact hv
      · exact h.defined x (List.mem_of_mem_drop hx)
    · obtain ⟨i, hi, rfl⟩ := List.mem_iff_getElem.1 hx
      simp only [List.getElem_drop, List.getElem_map]
      simp only [List.length_drop, List.length_map] at hi
      exact hafter _ (by omega) (by omega)
    · have hxv : x < value := by
        obtain ⟨i, hi, rfl⟩ := List.mem_iff_getElem.1 hx
        simp only [List.length_take, List.length_map] at hi
        simp only [List.getElem_take, List.getElem_map]
        have hmem : m.supports[i] ∈ m.supports := List.getElem_mem (by omega)
        rcases LawfulScalar.lt_or_beq_or_lt
          (h.defined _ (List.mem_map_of_mem hmem)) hv with hlt | heq | hgt
        · exact hlt
        · rw [hne _ hmem] at heq
          cases heq
        · exact absurd hgt (hbefore i (by omega) (by omega))
      rcases List.mem_cons.1 hy with rfl | hy
      · exact hxv
      · obtain ⟨j, hj, rfl⟩ := List.mem_iff_getElem.1 hy
        simp only [List.getElem_drop, List.getElem_map]
        simp only [List.length_drop, List.length_map] at hj
        exact LawfulScalar.lt_trans hxv (hafter _ (by omega) (by omega))

/-- The value added carries the label. -/
theorem marks_add_self (m : SupportMap α) {value : α} (hv : Scalar.Defined value)
    (label : Label) : (m.add value label).2.Marks value label := by
  -- the two ways of adding put the label in different places
  cases h : m.contains value with
  | true =>
    obtain ⟨s, hs, he⟩ : ∃ s ∈ m.supports, (s.value == value) = true := by
      simpa [contains] using h
    rw [add, if_pos h]
    refine ⟨_, List.mem_map_of_mem hs, ?_⟩
    rw [if_pos he]
    refine ⟨he, ?_⟩
    simp only [Label.insert]
    split
    · assumption
    · simp
  | false =>
    rw [add_of_not_contains label h]
    refine ⟨⟨value, [label]⟩, ?_, hv, by simp⟩
    rw [List.mem_insertIdx (positionAfter_le _ _)]
    exact .inl rfl

/-- Labels stay where they are when a value is added. -/
theorem Marks.add {m : SupportMap α} {x : α} {l : Label} (h : m.Marks x l) (value : α)
    (label : Label) : (m.add value label).2.Marks x l := by
  obtain ⟨s, hs, he, hl⟩ := h
  -- no way of adding takes a label off
  cases hc : m.contains value with
  | true =>
    rw [SupportMap.add, if_pos hc]
    refine ⟨_, List.mem_map_of_mem hs, ?_⟩
    split
    · refine ⟨he, ?_⟩
      simp only [Label.insert]
      split
      · exact hl
      · exact List.mem_append_left _ hl
    · exact ⟨he, hl⟩
  | false =>
    rw [add_of_not_contains label hc]
    refine ⟨s, ?_, he, hl⟩
    rw [List.mem_insertIdx (positionAfter_le _ _)]
    exact .inr hs

/-- Adding values is adding the first and then the others. -/
theorem addAll_cons (m : SupportMap α) (value : α) (values : List α) (label : Label) :
    m.addAll (value :: values) label =
      ((m.add value label).1 || ((m.add value label).2.addAll values label).1,
        ((m.add value label).2.addAll values label).2) := by
  have shift : ∀ (values : List α) (b : Bool) (m : SupportMap α),
      values.foldl (fun found value => (found.1 || (SupportMap.add found.2 value label).1,
        (SupportMap.add found.2 value label).2)) (b, m) =
      (b || (m.addAll values label).1, (m.addAll values label).2) := by
    intro values
    induction values with
    | nil => simp [addAll]
    | cons v vs ih =>
      intro b m
      rw [addAll, List.foldl_cons, List.foldl_cons, ih, ih, Bool.false_or, Bool.or_assoc]
  rw [addAll, List.foldl_cons, shift, Bool.false_or]

@[simp]
theorem addAll_nil (m : SupportMap α) (label : Label) : m.addAll [] label = (false, m) := rfl

theorem values_sublist_addAll (m : SupportMap α) (values : List α) (label : Label) :
    m.values.Sublist (m.addAll values label).2.values := by
  induction values generalizing m with
  | nil => simp
  | cons v vs ih =>
    rw [addAll_cons]
    exact (values_sublist_add m v label).trans (ih _)

theorem mem_values_addAll {m : SupportMap α} {values : List α} {label : Label} {x : α}
    (hx : x ∈ (m.addAll values label).2.values) : x ∈ m.values ∨ x ∈ values := by
  induction values generalizing m with
  | nil => exact .inl hx
  | cons v vs ih =>
    rw [addAll_cons] at hx
    rcases ih hx with h | h
    · rcases mem_values_add h with h | rfl
      · exact .inl h
      · exact .inr (by simp)
    · exact .inr (List.mem_cons_of_mem _ h)

theorem stores_addAll (m : SupportMap α) {values : List α} (label : Label) {x : α}
    (hx : x ∈ values) :
    x ∈ (m.addAll values label).2.values ∨
      ∃ y ∈ (m.addAll values label).2.values, (y == x) = true := by
  induction values generalizing m with
  | nil => cases hx
  | cons v vs ih =>
    rw [addAll_cons]
    rcases List.mem_cons.1 hx with rfl | hx
    · have hs := (values_sublist_addAll (m.add x label).2 vs label).subset
      exact (stores_add m x label).imp (hs ·) fun ⟨y, hy, he⟩ => ⟨y, hs hy, he⟩
    · exact ih _ hx

/-- Defined values added to an increasing map keep it increasing. -/
theorem increasing_addAll [LawfulScalar α] {m : SupportMap α} (h : Increasing m.values)
    {values : List α} (hv : ∀ x ∈ values, Scalar.Defined x) (label : Label) :
    Increasing (m.addAll values label).2.values := by
  induction values generalizing m with
  | nil => exact h
  | cons v vs ih =>
    rw [addAll_cons]
    exact ih (increasing_add h (hv v (by simp)) label) fun x hx => hv x (by simp [hx])

/-- Where all values are defined after an addition, the added ones were. -/
theorem defined_of_addAll [LawfulScalar α] {m : SupportMap α} {values : List α} {label : Label}
    (h : ∀ x ∈ (m.addAll values label).2.values, Scalar.Defined x) :
    ∀ x ∈ values, Scalar.Defined x := by
  intro x hx
  rcases stores_addAll m label hx with h' | ⟨y, -, he⟩
  · exact h x h'
  · exact Scalar.Defined.right he

theorem Marks.addAll {m : SupportMap α} {x : α} {l : Label} (h : m.Marks x l)
    (values : List α) (label : Label) : (m.addAll values label).2.Marks x l := by
  induction values generalizing m with
  | nil => exact h
  | cons v vs ih =>
    rw [addAll_cons]
    exact ih (h.add v label)

theorem marks_addAll (m : SupportMap α) {values : List α} (label : Label) {x : α}
    (hx : x ∈ values) (hd : Scalar.Defined x) : (m.addAll values label).2.Marks x label := by
  induction values generalizing m with
  | nil => cases hx
  | cons v vs ih =>
    rw [addAll_cons]
    rcases List.mem_cons.1 hx with rfl | hx
    · exact (marks_add_self m hd label).addAll vs label
    · exact ih _ hx

/-- Nothing is new exactly when the values are as before. -/
theorem values_addAll_of_not_new {m : SupportMap α} {values : List α} {label : Label}
    (h : (m.addAll values label).1 = false) : (m.addAll values label).2.values = m.values := by
  induction values generalizing m with
  | nil => rfl
  | cons v vs ih =>
    rw [addAll_cons] at h ⊢
    rw [Bool.or_eq_false_iff] at h
    have hc : m.contains v = true := by
      by_contra hc
      rw [Bool.not_eq_true] at hc
      rw [add_of_not_contains label hc] at h
      cases h.1
    exact (ih h.2).trans (add_of_contains label hc).2

theorem addAll_of_contained {m : SupportMap α} {values : List α} (label : Label)
    (h : ∀ x ∈ values, m.contains x = true) : (m.addAll values label).1 = false := by
  induction values generalizing m with
  | nil => rfl
  | cons v vs ih =>
    obtain ⟨h₁, h₂⟩ := add_of_contains label (h v (by simp))
    rw [addAll_cons, h₁, Bool.false_or]
    refine ih fun x hx => ?_
    rw [contains_iff, h₂, ← contains_iff]
    exact h x (by simp [hx])

end SupportMap

/-! ## Taking labels away -/

/-- What is left of a support when the labels that selectors cover are taken away: nothing, if they
cover all its labels. -/
def Support.stripped (selectors : List Label) (support : Support α) : Option (Support α) :=
  if Label.allCovered selectors support.labels then none
  else some { support with
    labels := support.labels.filter fun label => !Label.coveredBy selectors label }

namespace SupportMap

omit [Scalar α] in
theorem map_value_stripped_sublist (selectors : List Label) (supports : List (Support α)) :
    ((supports.filterMap (Support.stripped selectors)).map (·.value)).Sublist
      (supports.map (·.value)) := by
  -- supports are dropped or kept in their places
  induction supports with
  | nil => exact .refl _
  | cons s rest ih =>
    rw [List.filterMap_cons, Support.stripped]
    split
    · rename_i h
      rw [List.map_cons]
      exact ih.cons _
    · rename_i h
      split at h
      · cases h
      · cases h
        exact ih.cons_cons _

/-- Taking labels away treats every support on its own, as long as the undefined ones stay. -/
theorem stripFrom_eq_of_ascending [LawfulScalar α] (selectors : List Label)
    (kept rest : List (Support α)) (h : Ascending ((kept ++ rest).map (·.value)))
    (hdef : ∀ s ∈ rest, Label.allCovered selectors s.labels = true → Scalar.Defined s.value) :
    stripFrom selectors kept rest =
      (kept ++ rest.filterMap (Support.stripped selectors), none) := by
  induction rest generalizing kept with
  | nil => simp [stripFrom]
  | cons s rest ih =>
    have hrest := fun s' hs' => hdef s' (List.mem_cons_of_mem s hs')
    rw [stripFrom, List.filterMap_cons, Support.stripped]
    split
    · -- the support goes, and bisection finds it
      rename_i hall
      have hs : s ∈ kept ++ s :: rest := by simp
      obtain ⟨position, hp⟩ := Option.isSome_iff_exists.1
        (isSome_position?_of_ascending h hs (hdef s List.mem_cons_self hall))
      rw [hp]
      refine ih kept (List.Pairwise.sublist ?_ h) hrest
      simp only [List.map_append, List.map_cons]
      exact (List.Sublist.refl _).append (List.sublist_cons_self _ _)
    · -- the support stays with other labels, which the order does not see
      refine (ih _ ?_ hrest).trans ?_
      · simpa using h
      · rw [List.append_assoc]
        rfl

theorem strip_eq_of_ascending [LawfulScalar α] {m : SupportMap α} (h : Ascending m.values)
    {selectors : List Label} (hdef : ∀ s ∈ m.supports,
      Label.allCovered selectors s.labels = true → Scalar.Defined s.value) :
    m.strip selectors = (⟨m.supports.filterMap (Support.stripped selectors)⟩, none) := by
  rw [strip, stripFrom_eq_of_ascending selectors [] m.supports h hdef]
  rfl

/-- On an increasing map, taking labels away treats every support on its own. -/
theorem strip_eq [LawfulScalar α] {m : SupportMap α} (h : Increasing m.values)
    (selectors : List Label) :
    m.strip selectors = (⟨m.supports.filterMap (Support.stripped selectors)⟩, none) :=
  strip_eq_of_ascending h.ascending fun _ hs _ => h.defined _ (List.mem_map_of_mem hs)

theorem increasing_strip [LawfulScalar α] {m : SupportMap α} (h : Increasing m.values)
    (selectors : List Label) : Increasing (m.strip selectors).1.values := by
  rw [strip_eq h]
  exact h.sublist (map_value_stripped_sublist selectors m.supports)

/-- Where stripping goes through to the end, it treated every support on its own, whatever the order
of the values. -/
theorem stripFrom_of_done {selectors : List Label} {kept rest : List (Support α)}
    (hdone : (stripFrom selectors kept rest).2 = none) :
    (stripFrom selectors kept rest).1 = kept ++ rest.filterMap (Support.stripped selectors) := by
  -- over what is not treated yet; `kept` has what was treated and stays
  induction rest generalizing kept with
  | nil => simp [stripFrom]
  | cons s rest ih =>
    rw [stripFrom] at hdone ⊢
    rw [List.filterMap_cons, Support.stripped]
    split
    · rename_i hall
      rw [if_pos hall] at hdone
      cases hfound : position? (kept ++ s :: rest) s.value with
      | some position =>
        rw [hfound] at hdone
        exact ih hdone
      | none => simp [hfound] at hdone
    · rename_i hstays
      rw [if_neg hstays] at hdone
      rw [ih hdone, List.append_assoc]
      rfl

theorem strip_of_done {m : SupportMap α} {selectors : List Label}
    (hdone : (m.strip selectors).2 = none) :
    (m.strip selectors).1.supports = m.supports.filterMap (Support.stripped selectors) :=
  (stripFrom_of_done hdone).trans (List.nil_append _)

/-- After labels were stripped, also where that ended early, a support is one from before or what
is left of one. -/
theorem mem_stripFrom {s : Support α} {selectors : List Label} {kept rest : List (Support α)}
    (hs : s ∈ (stripFrom selectors kept rest).1) :
    s ∈ kept ∨ ∃ s₀ ∈ rest, s = s₀ ∨ s₀.stripped selectors = some s := by
  -- what is kept grows as the rest is gone through
  induction rest generalizing kept with
  | nil => exact .inl hs
  | cons s₁ rest ih =>
    have later : (∃ s₀ ∈ rest, s = s₀ ∨ s₀.stripped selectors = some s) →
        ∃ s₀ ∈ s₁ :: rest, s = s₀ ∨ s₀.stripped selectors = some s :=
      fun ⟨s₀, hs₀, h⟩ => ⟨s₀, List.mem_cons_of_mem s₁ hs₀, h⟩
    rw [stripFrom] at hs
    split at hs
    · split at hs
      · exact (ih hs).imp_right later
      · rcases List.mem_append.1 hs with hs | hs
        · exact .inl hs
        · exact .inr ⟨s, hs, .inl rfl⟩
    · rename_i hstays
      rcases ih hs with hs | hs
      · rcases List.mem_append.1 hs with hs | hs
        · exact .inl hs
        · refine .inr ⟨s₁, List.mem_cons_self, .inr ?_⟩
          rw [Support.stripped, if_neg hstays, List.mem_singleton.1 hs]
      · exact .inr (later hs)

theorem mem_strip {m : SupportMap α} {s : Support α} {selectors : List Label}
    (hs : s ∈ (m.strip selectors).1.supports) :
    ∃ s₀ ∈ m.supports, s = s₀ ∨ s₀.stripped selectors = some s :=
  (mem_stripFrom hs).resolve_left (List.not_mem_nil)

/-- Stripping labels gives no new values. -/
theorem values_strip_subset {m : SupportMap α} (selectors : List Label) :
    (m.strip selectors).1.values ⊆ m.values := by
  intro x hx
  obtain ⟨s, hs, rfl⟩ := List.mem_map.1 hx
  obtain ⟨s₀, hs₀, rfl | hstripped⟩ := mem_strip hs
  · exact List.mem_map_of_mem hs₀
  · unfold Support.stripped at hstripped
    split at hstripped
    · cases hstripped
    · cases hstripped
      exact List.mem_map.2 ⟨s₀, hs₀, rfl⟩

/-- A label that no selector covers stays where it is. -/
theorem Marks.strip [LawfulScalar α] {m : SupportMap α} (h : Increasing m.values) {x : α}
    {l : Label} (hm : m.Marks x l) {selectors : List Label}
    (hl : Label.coveredBy selectors l = false) : (m.strip selectors).1.Marks x l := by
  obtain ⟨s, hs, he, hlabel⟩ := hm
  rw [strip_eq h]
  have hall : Label.allCovered selectors s.labels = false := by
    rw [Label.allCovered, List.all_eq_false]
    exact ⟨l, hlabel, by simp [hl]⟩
  refine ⟨{ s with labels := s.labels.filter fun label => !Label.coveredBy selectors label },
    List.mem_filterMap.2 ⟨s, hs, ?_⟩, he, List.mem_filter.2 ⟨hlabel, by rw [hl]; rfl⟩⟩
  rw [Support.stripped, if_neg (by rw [hall]; exact Bool.false_ne_true)]

theorem undefined_mem_stripFrom [LawfulScalar α] (selectors : List Label)
    (kept rest : List (Support α))
    (h : ∃ s ∈ kept ++ rest, ¬ Scalar.Defined s.value) :
    ∃ s ∈ (stripFrom selectors kept rest).1, ¬ Scalar.Defined s.value := by
  induction rest generalizing kept with
  | nil => simpa [stripFrom] using h
  | cons s rest ih =>
    rw [stripFrom]
    split
    · split
      · rename_i hp
        refine ih kept ?_
        obtain ⟨u, hu, hd⟩ := h
        rw [List.mem_append, List.mem_cons] at hu
        rcases hu with hu | rfl | hu
        · exact ⟨u, by simp [hu], hd⟩
        · -- the undefined support cannot be the one that bisection found
          rw [position?_of_undefined _ hd] at hp
          cases hp
        · exact ⟨u, by simp [hu], hd⟩
      · exact h
    · refine ih _ ?_
      obtain ⟨u, hu, hd⟩ := h
      rw [List.mem_append, List.mem_cons] at hu
      rcases hu with hu | rfl | hu
      · exact ⟨u, by simp [hu], hd⟩
      · refine ⟨{ u with
          labels := u.labels.filter fun label => !Label.coveredBy selectors label }, ?_, hd⟩
        simp
      · exact ⟨u, by simp [hu], hd⟩

/-- An undefined value is never taken away. -/
theorem undefined_mem_strip [LawfulScalar α] {m : SupportMap α} (selectors : List Label)
    (h : ∃ x ∈ m.values, ¬ Scalar.Defined x) :
    ∃ x ∈ (m.strip selectors).1.values, ¬ Scalar.Defined x := by
  obtain ⟨x, hx, hd⟩ := h
  obtain ⟨s, hs, rfl⟩ := List.mem_map.1 hx
  obtain ⟨u, hu, hd⟩ := undefined_mem_stripFrom selectors [] m.supports ⟨s, hs, hd⟩
  exact ⟨u.value, List.mem_map_of_mem hu, hd⟩

end SupportMap

end Discretization
