import Discretization.Proofs.Recollections
import Discretization.Proofs.Separations

/-!
# Rows and Dictionaries

What belongs together is kept in one row here: a value with its labels, a key with its counterpart,
a reduced variable with its entry. The same data can be kept in columns, with a dictionary for what
is searched: sorted values beside a dictionary of their labels; keys and counterparts beside a
dictionary of positions; reduced variables and their entries beside another one. Columns that stand
for rows go on to do so when both are changed alike, and answer as the rows do.

## Main definitions

* `Dictionary`: a table that is searched by its keys;
* `SupportMap.Columns`, `SupportMap.Columns.Holds`: values and a dictionary of labels;
* `Entry.Columns`, `Entry.columns`: keys, counterparts and a dictionary of positions;
* `ReducedColumns`, `ReducedVariable.columns`: reduced variables, entries and a dictionary.

## Main results

* `SupportMap.Columns.Holds.add`, `SupportMap.Columns.Holds.remove`: additions and removals keep
  columns of supports and their rows together;
* `Entry.columns_insert?`, `Entry.get?_columns`: so do additions to an entry, which is searched
  alike;
* `ReducedVariable.columns_snoc`, `ReducedVariable.contains_columns`: and so it is for reduced
  variables.
-/

namespace Discretization

/-- A table that is searched by its keys, in the order in which these were set first. -/
abbrev Dictionary (κ β : Type) := List (κ × β)

namespace Dictionary

variable {κ β : Type} [BEq κ]

/-- What a key stands for. -/
def get? (d : Dictionary κ β) (key : κ) : Option β :=
  (d.find? (·.1 == key)).map (·.2)

end Dictionary

/-! ## Rows of a table -/

section Rows

variable {β : Type} {p : β → Bool} {b : β} {l₁ l₂ : List β}

/-- A search finds what was changed in place as it was found before. -/
theorem find?_map_of_comp {f : β → β} (hf : ∀ b, p (f b) = p b) (l : List β) :
    (l.map f).find? p = (l.find? p).map f := by
  rw [List.find?_map]
  congr 2
  exact funext hf

/-- One row among others is found if it alone is looked for, and is no obstacle otherwise. -/
theorem find?_middle (h : p b = true → ∀ y ∈ l₁ ++ l₂, p y = false) :
    (l₁ ++ b :: l₂).find? p = if p b then some b else (l₁ ++ l₂).find? p := by
  rw [List.find?_append, List.find?_cons]
  cases hb : p b with
  | true =>
    have hnone : l₁.find? p = none :=
      List.find?_eq_none.2 fun y hy => by simp [h hb y (List.mem_append_left _ hy)]
    simp [hnone]
  | false => simp [List.find?_append]

variable {α : Type} [Scalar α] [LawfulScalar α]

/-- What equals a value equals the same values as it does. -/
theorem beq_eq_of_beq {x y : α} (h : (x == y) = true) (z : α) : (x == z) = (y == z) :=
  Bool.eq_iff_iff.2 ⟨LawfulScalar.beq_trans (LawfulScalar.beq_symm h), LawfulScalar.beq_trans h⟩

/-- In a table that has each key once, equal keys are in the same row. -/
theorem apart_of_separated {key : β → α} (h : Separated ((l₁ ++ b :: l₂).map key)) {x : α}
    (hb : (key b == x) = true) : ∀ y ∈ l₁ ++ l₂, (key y == x) = false := by
  have hpair := List.pairwise_map.1 h
  obtain ⟨-, hafter, hacross⟩ := List.pairwise_append.1 hpair
  intro y hy
  by_contra hne
  have hy' : (key y == x) = true := Bool.of_not_eq_false hne
  rcases List.mem_append.1 hy with hy | hy
  · have hapart := hacross y hy b List.mem_cons_self
    rw [beq_eq_of_beq hy', LawfulScalar.beq_symm hb] at hapart
    cases hapart
  · have hapart := List.rel_of_pairwise_cons hafter hy
    rw [beq_eq_of_beq hb, LawfulScalar.beq_symm hy'] at hapart
    cases hapart

end Rows

/-! ## Supports -/

namespace SupportMap

/-- Supports as a sorted list of values beside a dictionary of their labels. -/
structure Columns (α : Type) where
  /-- The values in order. -/
  values : List α := []
  /-- The labels of each value. -/
  labels : Dictionary α (List Label) := []

namespace Columns

variable {α : Type} [Scalar α]

/-- Attaches a label to a value; the flag tells whether the value is new. -/
def add (c : Columns α) (value : α) (label : Label) : Bool × Columns α :=
  match c.labels.get? value with
  | some _ =>
    (false, { c with labels := c.labels.map fun row =>
      if row.1 == value then (row.1, label.insert row.2) else row })
  | none =>
    let position := bisect (fun i => match c.values[i]? with
      | some x => !decide (value < x)
      | none => false) 0 c.values.length
    (true, ⟨c.values.insertIdx position value, c.labels ++ [(value, [label])]⟩)

/-- The columns without a value that must be stored. -/
def remove (c : Columns α) (value : α) : Except (Error α) (Columns α) :=
  let position := bisect (fun i => match c.values[i]? with
    | some x => decide (x < value)
    | none => false) 0 c.values.length
  match c.values[position]? with
  | some x =>
    if x == value then
      pure ⟨c.values.eraseIdx position, c.labels.eraseP (·.1 == value)⟩
    else throw (.missingKey value)
  | none => throw (.missingKey value)

/-- The columns stand for the rows. -/
structure Holds (c : Columns α) (m : SupportMap α) : Prop where
  values : c.values = m.values
  labels : ∀ x, c.labels.get? x = m.labels? x
  /-- The dictionary has each key once, and so do the rows. -/
  keys : Separated (c.labels.map (·.1))
  separated : Separated m.values

variable {c : Columns α} {m : SupportMap α}

theorem holds_empty : ({} : Columns α).Holds {} where
  values := rfl
  labels _ := rfl
  keys := .nil
  separated := .nil

theorem Holds.getElem?_values (h : c.Holds m) (i : ℕ) :
    c.values[i]? = m.supports[i]?.map (·.value) := by
  rw [h.values, SupportMap.values, List.getElem?_map]

theorem Holds.length_values (h : c.Holds m) : c.values.length = m.supports.length := by
  rw [h.values, SupportMap.values, List.length_map]

/-- A value that is searched in the dictionary is found where the rows have it. -/
theorem Holds.isSome_get?_iff (h : c.Holds m) (x : α) :
    (c.labels.get? x).isSome = m.contains x := by
  rw [h.labels, labels?, Option.isSome_map, List.isSome_find?]
  rfl

theorem Holds.positionAfter_eq (h : c.Holds m) (x : α) :
    bisect (fun i => match c.values[i]? with
      | some y => !decide (x < y)
      | none => false) 0 c.values.length = positionAfter m.supports x := by
  rw [positionAfter, h.length_values]
  congr 1
  funext i
  rw [h.getElem?_values]
  cases m.supports[i]? <;> rfl

theorem Holds.positionBefore_eq (h : c.Holds m) (x : α) :
    bisect (fun i => match c.values[i]? with
      | some y => decide (y < x)
      | none => false) 0 c.values.length = positionBefore m.supports x := by
  rw [positionBefore, h.length_values]
  congr 1
  funext i
  rw [h.getElem?_values]
  cases m.supports[i]? <;> rfl

variable [LawfulScalar α]

/-- Both tables get one more label for a value that is there. -/
theorem Holds.labels_map (h : c.Holds m) (value : α) (f : List Label → List Label) (x : α) :
    Dictionary.get? (c.labels.map fun row => if row.1 == value then (row.1, f row.2) else row) x =
      labels? ⟨m.supports.map fun s =>
        if s.value == value then { s with labels := f s.labels } else s⟩ x := by
  have hx := h.labels x
  unfold Dictionary.get? labels? at hx ⊢
  rw [find?_map_of_comp fun row => by split <;> rfl,
    find?_map_of_comp fun s => by split <;> rfl]
  -- what is found for the value equals it, so that both rows are changed or none is
  cases hrow : c.labels.find? (·.1 == x) with
  | none =>
    cases hsupport : m.supports.find? (·.value == x) with
    | none => rfl
    | some s => simp [hrow, hsupport] at hx
  | some row =>
    cases hsupport : m.supports.find? (·.value == x) with
    | none => simp [hrow, hsupport] at hx
    | some s =>
      have hlabels : row.2 = s.labels := by simpa [hrow, hsupport] using hx
      have hequal : (row.1 == value) = (s.value == value) :=
        (beq_eq_of_beq (by simpa using List.find?_some hrow) value).trans
          (beq_eq_of_beq (by simpa using List.find?_some hsupport) value).symm
      simp only [Option.map_some, hequal, apply_ite Prod.snd, apply_ite Support.labels, hlabels]

/-- An addition keeps columns and rows together, and both tell whether the value is new. -/
theorem Holds.add (h : c.Holds m) (value : α) (label : Label) :
    (c.add value label).1 = (m.add value label).1 ∧
      (c.add value label).2.Holds (m.add value label).2 := by
  have hseparated := separated_add h.separated value label
  have hfound := h.isSome_get?_iff value
  cases hget : c.labels.get? value with
  | some labels =>
    have hcontains : m.contains value = true := by rw [← hfound, hget]; rfl
    have hvalues := (add_of_contains label hcontains).2
    simp only [Columns.add, SupportMap.add, hget, hcontains, if_true] at hseparated hvalues ⊢
    refine ⟨trivial, h.values.trans hvalues.symm, h.labels_map value label.insert, ?_, hseparated⟩
    rw [List.map_map]
    convert h.keys using 2
    funext row
    simp only [Function.comp_apply]
    split <;> rfl
  | none =>
    have hcontains : m.contains value = false := by rw [← hfound, hget]; rfl
    rw [add_of_not_contains label hcontains] at hseparated ⊢
    simp only [Columns.add, hget, h.positionAfter_eq]
    refine ⟨trivial, ?_, fun x => ?_, ?_, hseparated⟩
    · rw [h.values, SupportMap.values, SupportMap.values, List.map_insertIdx]
    · -- the new row is found for what equals the value, and no other one is
      have hother : (value == x) = true → ∀ s ∈ m.supports, (s.value == x) = false := by
        intro hequal s hs
        by_contra hne
        have hstored := contains_iff.2 ⟨s.value, List.mem_map_of_mem hs,
          LawfulScalar.beq_trans (Bool.of_not_eq_false hne) (LawfulScalar.beq_symm hequal)⟩
        rw [hcontains] at hstored
        cases hstored
      have hrow : (m.supports.insertIdx (positionAfter m.supports value) ⟨value, [label]⟩).find?
            (·.value == x) =
          if value == x then some ⟨value, [label]⟩ else m.supports.find? (·.value == x) := by
        rw [insertIdx_eq _ _ (positionAfter_le _ _), find?_middle, List.take_append_drop]
        rw [List.take_append_drop]
        exact hother
      have hx := h.labels x
      rw [labels?, hrow, Dictionary.get?, List.find?_append]
      unfold Dictionary.get? labels? at hx
      cases hequal : value == x with
      | true =>
        have hnone : m.supports.find? (·.value == x) = none :=
          List.find?_eq_none.2 fun s hs => by simp [hother hequal s hs]
        have hnone' : c.labels.find? (·.1 == x) = none := by simpa [hnone] using hx
        simp [hnone', hequal]
      | false => simpa [hequal] using hx
    · rw [List.map_append]
      refine List.pairwise_append.2 ⟨h.keys, List.pairwise_singleton _ _, fun x hx y hy => ?_⟩
      obtain rfl := List.mem_singleton.1 hy
      obtain ⟨row, hrow, rfl⟩ := List.mem_map.1 hx
      unfold Dictionary.get? at hget
      simpa using List.find?_eq_none.1 (Option.map_eq_none_iff.1 hget) row hrow

/-- A removal keeps columns and rows together, and both fail for a value that is not there. -/
theorem Holds.remove (h : c.Holds m) (value : α) :
    (∃ c' m', c.remove value = .ok c' ∧ m.remove value = .ok m' ∧ c'.Holds m') ∨
      c.remove value = .error (.missingKey value) ∧
        m.remove value = .error (.missingKey value) := by
  unfold Columns.remove SupportMap.remove position?
  rw [h.positionBefore_eq]
  simp only [h.getElem?_values]
  generalize positionBefore m.supports value = position
  cases hs : m.supports[position]? with
  | none => exact .inr ⟨rfl, rfl⟩
  | some s =>
    simp only [Option.map_some]
    cases hequal : s.value == value with
    | false => exact .inr ⟨rfl, rfl⟩
    | true =>
      refine .inl ⟨_, _, rfl, rfl, ?_⟩
      -- both tables have one row for the value, between others
      obtain ⟨before, after, hrows, herased⟩ : ∃ before after,
          m.supports = before ++ s :: after ∧ m.supports.eraseIdx position = before ++ after := by
        obtain ⟨hlt, hget⟩ := List.getElem?_eq_some_iff.1 hs
        refine ⟨m.supports.take position, m.supports.drop (position + 1), ?_,
          List.eraseIdx_eq_take_drop_succ _ _⟩
        rw [← hget, List.getElem_cons_drop, List.take_append_drop]
      obtain ⟨row, hrow, hkey⟩ : ∃ row ∈ c.labels, (row.1 == value) = true := by
        have hsome : (c.labels.get? value).isSome = true := by
          rw [h.isSome_get?_iff]
          exact contains_iff.2 ⟨s.value, List.mem_map_of_mem (List.mem_of_getElem? hs), hequal⟩
        rw [Dictionary.get?, Option.isSome_map, List.find?_isSome] at hsome
        exact hsome
      obtain ⟨own, first, rest, -, hown, hlabels, hwithout⟩ :=
        List.exists_of_eraseP (p := (·.1 == value)) hrow hkey
      have hkeys := h.keys
      have hvalues := h.separated
      rw [hlabels] at hkeys
      rw [SupportMap.values, hrows] at hvalues
      refine ⟨?_, fun x => ?_, ?_, ?_⟩
      · rw [h.values, SupportMap.values, SupportMap.values, List.eraseIdx_map]
      · have hx := h.labels x
        rw [Dictionary.get?, labels?, hlabels, hrows, find?_middle (apart_of_separated hkeys),
          find?_middle (apart_of_separated hvalues)] at hx
        rw [Dictionary.get?, labels?, hwithout, herased]
        -- a removed value is found in neither, any other one where it was
        rw [beq_eq_of_beq hown] at hx
        cases hsame : value == x with
        | true =>
          have hnone : (first ++ rest).find? (·.1 == x) = none :=
            List.find?_eq_none.2 fun y hy => by
              simp [apart_of_separated hkeys (LawfulScalar.beq_trans hown hsame) y hy]
          have hnone' : (before ++ after).find? (·.value == x) = none :=
            List.find?_eq_none.2 fun y hy => by
              simp [apart_of_separated hvalues (LawfulScalar.beq_trans hequal hsame) y hy]
          rw [hnone, hnone']
          rfl
        | false => simpa [hsame, beq_eq_of_beq hequal x] using hx
      · exact h.keys.sublist (List.eraseP_sublist.map _)
      · exact h.separated.sublist ((List.eraseIdx_sublist _ _).map _)

end Columns

end SupportMap

/-! ## Entries -/

namespace Entry

variable {κ β : Type}

/-- Keys and counterparts side by side, with the positions at which they stand. -/
structure Columns (κ β : Type) where
  /-- The keys in the order of their transcription. -/
  keys : List (List κ) := []
  /-- The counterpart of each key. -/
  counterparts : List β := []
  /-- The position of each key. -/
  lookup : Dictionary (List κ) ℕ := []

namespace Columns

variable [BEq κ]

/-- The counterpart at a key. -/
def get? (c : Columns κ β) (key : List κ) : Option β :=
  (c.lookup.get? key).bind (c.counterparts[·]?)

/-- Adds a key with its counterpart and gives its position, unless the key is there already. -/
def insert? (c : Columns κ β) (key : List κ) (counterpart : β) : Option (ℕ × Columns κ β) :=
  match c.lookup.get? key with
  | some _ => none
  | none =>
    let position := c.counterparts.length
    some (position, ⟨c.keys ++ [key], c.counterparts ++ [counterpart],
      c.lookup ++ [(key, position)]⟩)

end Columns

/-- The columns of an entry. -/
def columns (e : Entry κ β) : Columns κ β :=
  ⟨e.keys, e.counterparts, e.keys.zipIdx⟩

variable [BEq κ]

/-- A key is found in the dictionary where it is found among the rows. -/
theorem get?_lookup (e : Entry κ β) (key : List κ) :
    e.columns.lookup.get? key = e.position? key := by
  -- over the rows, with the position of the first one
  have hfind : ∀ (rows : List (List κ × β)) (start : ℕ),
      Dictionary.get? ((rows.map (·.1)).zipIdx start) key =
        (rows.findIdx? (·.1 == key)).map (· + start) := by
    intro rows
    induction rows with
    | nil => exact fun _ => rfl
    | cons row rest ih =>
      intro start
      have ih := ih (start + 1)
      unfold Dictionary.get? at ih ⊢
      rw [List.map_cons, List.zipIdx_cons, List.find?_cons, List.findIdx?_cons]
      cases row.1 == key with
      | true => simp
      | false =>
        simp only [ih, Bool.false_eq_true, if_false, Option.map_map]
        congr 1
        funext i
        simp only [Function.comp_apply]
        omega
  rw [columns, Entry.keys, hfind, position?]
  exact congrFun Option.map_id _

/-- Columns are searched as the rows are. -/
theorem get?_columns (e : Entry κ β) (key : List κ) : e.columns.get? key = e.get? key := by
  rw [Columns.get?, get?_lookup]
  cases hposition : e.position? key with
  | none =>
    rw [position?, List.findIdx?_eq_none_iff] at hposition
    rw [get?, List.find?_eq_none.2 fun row hrow => by simp [hposition row hrow]]
    rfl
  | some i =>
    obtain ⟨hi, hkey, hbefore⟩ := List.findIdx?_eq_some_iff_getElem.1 hposition
    have hfound : e.rows.find? (·.1 == key) = some e.rows[i] :=
      List.find?_eq_some_iff_getElem.2 ⟨hkey, i, hi, rfl, fun j hj => by simpa using hbefore j hj⟩
    rw [get?, hfound]
    simp [columns, counterparts, hi]

/-- An addition to an entry is one to its columns, at the same position. -/
theorem columns_insert? (e : Entry κ β) (key : List κ) (counterpart : β) :
    (e.insert? key counterpart).map (fun added => (added.1, added.2.columns)) =
      e.columns.insert? key counterpart := by
  unfold insert? Columns.insert?
  rw [get?_lookup]
  cases e.position? key with
  | some position => rfl
  | none =>
    simp [columns, keys, counterparts, size, List.zipIdx_append]

end Entry

/-! ## Reduced variables -/

/-- Reduced variables and their entries side by side, with the positions at which they stand. -/
structure ReducedColumns (α : Type) (κ : Type := α) where
  /-- The variables, each with the parameters that are fixed and those that are left. -/
  recorded : List (Ref × List (Ref × α) × List Ref) := []
  /-- The entry of each variable. -/
  entries : List (Entry κ Nat) := []
  /-- The position at which a variable is recorded with some fixed values. -/
  lookup : Dictionary (Ref × List α) ℕ := []

namespace ReducedColumns

variable {α κ : Type}

/-- Whether a variable is recorded with some fixed values. -/
def contains [BEq α] (c : ReducedColumns α κ) (ref : Ref) (values : List α) : Bool :=
  (c.lookup.get? (ref, values)).isSome

/-- Records a variable with its entry under its fixed values. -/
def record (c : ReducedColumns α κ) (ref : Ref) (fixed : List (Ref × α)) (entry : Entry κ Nat) :
    ReducedColumns α κ where
  recorded := c.recorded ++ [(ref, fixed, entry.parameters)]
  entries := c.entries ++ [entry]
  lookup := c.lookup ++ [((ref, fixed.map (·.2)), c.recorded.length)]

end ReducedColumns

namespace ReducedVariable

variable {α κ : Type}

/-- The columns of reduced variables. -/
def columns (reduced : List (ReducedVariable α κ)) : ReducedColumns α κ where
  recorded := reduced.map fun r => (r.ref, r.fixed, r.parameters)
  entries := reduced.map (·.entry)
  lookup := (reduced.map fun r => (r.ref, r.values)).zipIdx

/-- To record a reduced variable is to record it in the columns. -/
theorem columns_snoc (reduced : List (ReducedVariable α κ)) (r : ReducedVariable α κ) :
    columns (reduced ++ [r]) = (columns reduced).record r.ref r.fixed r.entry := by
  simp [columns, ReducedColumns.record, List.zipIdx_append, values, parameters]

/-- A variable is found in the dictionary if it is among the reduced ones. -/
theorem contains_columns [BEq α] (reduced : List (ReducedVariable α κ)) (ref : Ref)
    (values : List α) :
    (columns reduced).contains ref values =
      reduced.any fun r => r.ref = ref && r.values == values := by
  have hany : ∀ rows : Dictionary (Ref × List α) ℕ,
      rows.any (·.1 == (ref, values)) = (rows.map (·.1)).any (· == (ref, values)) :=
    fun rows => by rw [List.any_map]; rfl
  rw [ReducedColumns.contains, Dictionary.get?, Option.isSome_map, List.isSome_find?, hany, columns,
    List.zipIdx_map_fst, List.any_map]
  rfl

/-- What stands at a position is the same in rows and columns. -/
theorem getElem?_columns (reduced : List (ReducedVariable α κ)) (i : ℕ) :
    (columns reduced).recorded[i]? = reduced[i]?.map (fun r => (r.ref, r.fixed, r.parameters)) ∧
      (columns reduced).entries[i]? = reduced[i]?.map (·.entry) := by
  simp [columns]

end ReducedVariable

end Discretization
