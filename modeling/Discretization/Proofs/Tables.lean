import Discretization.Table
import Mathlib.Data.List.Nodup

/-!
# Tables as Maps

A table whose indices increase, none above the last one given out, is a map from indices to
objects. Adding gives out a fresh index, and an index that was erased is not found again.
-/

namespace Discretization.Table

variable {β : Type}

/-- The indices increase and were all given out. -/
structure WellFormed (t : Table β) : Prop where
  /-- The indices are in increasing order. -/
  increasing : t.indices.Pairwise (· < ·)
  /-- No index is above the last one given out. -/
  bounded : ∀ i ∈ t.indices, i ≤ t.last

theorem WellFormed.empty : ({} : Table β).WellFormed :=
  ⟨.nil, by simp [indices]⟩

theorem WellFormed.nodup {t : Table β} (h : t.WellFormed) : t.indices.Nodup :=
  h.increasing.imp Nat.ne_of_lt

/-- The index of an object that is found. -/
theorem mem_rows_of_get? {t : Table β} {i : Int} {b : β} (h : t.get? i = some b) :
    ∃ n : Nat, (n : Int) = i ∧ (n, b) ∈ t.rows := by
  rw [get?, Option.map_eq_some_iff] at h
  obtain ⟨⟨n, c⟩, hfind, rfl⟩ := h
  exact ⟨n, by simpa using List.find?_some hfind, List.mem_of_find?_eq_some hfind⟩

theorem get?_of_mem_rows {t : Table β} (ht : t.WellFormed) {n : Nat} {b : β}
    (h : (n, b) ∈ t.rows) : t.get? n = some b := by
  cases hg : t.get? n with
  | none =>
    rw [get?, Option.map_eq_none_iff, List.find?_eq_none] at hg
    exact absurd (hg _ h) (by simp)
  | some c =>
    obtain ⟨k, hk, hmem⟩ := mem_rows_of_get? hg
    obtain rfl : k = n := by omega
    -- two rows with one index are the same row
    obtain ⟨i, hi, hci⟩ := List.mem_iff_getElem.1 hmem
    obtain ⟨j, hj, hbj⟩ := List.mem_iff_getElem.1 h
    have hij : i = j := by
      have hi' : i < t.indices.length := by simpa [indices] using hi
      have hj' : j < t.indices.length := by simpa [indices] using hj
      have hsame : t.indices[i] = t.indices[j] := by
        simp only [indices, List.getElem_map, hci, hbj]
      exact ht.nodup.getElem_inj_iff.1 hsame
    subst hij
    rw [hci] at hbj
    cases hbj
    rfl

theorem get?_eq_some_iff {t : Table β} (ht : t.WellFormed) {n : Nat} {b : β} :
    t.get? n = some b ↔ (n, b) ∈ t.rows := by
  refine ⟨fun h => ?_, get?_of_mem_rows ht⟩
  obtain ⟨k, hk, hmem⟩ := mem_rows_of_get? h
  obtain rfl : k = n := by omega
  exact hmem

theorem mem_indices_iff {t : Table β} {n : Nat} :
    n ∈ t.indices ↔ ∃ b, t.get? n = some b := by
  constructor
  · intro h
    obtain ⟨⟨k, b⟩, hmem, rfl⟩ := List.mem_map.1 h
    cases hg : t.get? k with
    | some c => exact ⟨c, rfl⟩
    | none =>
      rw [get?, Option.map_eq_none_iff, List.find?_eq_none] at hg
      exact absurd (hg _ hmem) (by simp)
  · rintro ⟨b, h⟩
    obtain ⟨k, hk, hmem⟩ := mem_rows_of_get? h
    obtain rfl : k = n := by omega
    exact List.mem_map_of_mem hmem

theorem mem_objects_of_get? {t : Table β} {i : Int} {b : β} (h : t.get? i = some b) :
    b ∈ t.objects := by
  obtain ⟨n, -, hmem⟩ := mem_rows_of_get? h
  exact List.mem_map_of_mem hmem

/-! ## Adding -/

theorem next_not_mem {t : Table β} (ht : t.WellFormed) : t.next ∉ t.indices := fun h =>
  absurd (ht.bounded _ h) (by simp [next])

@[simp]
theorem indices_push (t : Table β) (b : β) : (t.push b).indices = t.indices ++ [t.next] := by
  simp [push, indices]

theorem WellFormed.push {t : Table β} (ht : t.WellFormed) (b : β) : (t.push b).WellFormed := by
  refine ⟨?_, fun i hi => ?_⟩
  · rw [indices_push, List.pairwise_append]
    refine ⟨ht.increasing, List.pairwise_singleton _ _, fun i hi j hj => ?_⟩
    rw [List.mem_singleton.1 hj]
    exact Nat.lt_succ_of_le (ht.bounded i hi)
  · rw [indices_push, List.mem_append, List.mem_singleton] at hi
    change i ≤ t.next
    rcases hi with hi | rfl
    · exact Nat.le_succ_of_le (ht.bounded i hi)
    · exact Nat.le_refl _

/-- An object that is found stays when another is added. -/
theorem get?_push_of_some {t : Table β} {i : Int} {c : β} (h : t.get? i = some c) (b : β) :
    (t.push b).get? i = some c := by
  rw [get?, Option.map_eq_some_iff] at h ⊢
  obtain ⟨row, hfind, rfl⟩ := h
  refine ⟨row, ?_, rfl⟩
  rw [push, List.find?_append, hfind]
  rfl

theorem get?_push_next {t : Table β} (ht : t.WellFormed) (b : β) :
    (t.push b).get? t.next = some b :=
  (get?_eq_some_iff (ht.push b)).2 (by simp [push])

/-- Something is found under the next index after an addition. -/
theorem exists_get?_push_next (t : Table β) (b : β) : ∃ c, (t.push b).get? t.next = some c := by
  rw [← Option.isSome_iff_exists, get?, Option.isSome_map, List.find?_isSome]
  exact ⟨(t.next, b), by simp [push], by simp⟩

/-- What is found after an addition was there before or is the new object. -/
theorem get?_push {t : Table β} {i : Int} {b c : β} (h : (t.push b).get? i = some c) :
    t.get? i = some c ∨ (i = t.next ∧ c = b) := by
  rw [get?, Option.map_eq_some_iff] at h
  obtain ⟨row, hfind, rfl⟩ := h
  rw [push, List.find?_append] at hfind
  -- what is found first stands among the old rows, or it is the row that was put at the end
  cases hg : t.rows.find? fun row => (row.1 : Int) = i with
  | some r =>
    rw [hg] at hfind
    cases hfind
    exact .inl (by rw [get?, hg]; rfl)
  | none =>
    rw [hg, Option.none_or] at hfind
    have hmem := List.mem_of_find?_eq_some hfind
    have hi := List.find?_some hfind
    rw [List.mem_singleton] at hmem
    subst hmem
    exact .inr ⟨by simpa [eq_comm] using hi, rfl⟩

/-! ## Changing -/

@[simp]
theorem indices_modify (t : Table β) (i : Int) (f : β → β) :
    (t.modify i f).indices = t.indices := by
  rw [modify, indices, indices, List.map_map]
  refine List.map_congr_left fun row _ => ?_
  simp only [Function.comp_apply]
  split <;> rfl

theorem get?_modify (t : Table β) (i j : Int) (f : β → β) :
    (t.modify i f).get? j = if j = i then (t.get? j).map f else t.get? j := by
  -- a look-up stops at the first row with its index, so it is followed row by row
  have hfind : ∀ rows : List (Nat × β),
      ((rows.map fun row => if (row.1 : Int) = i then (row.1, f row.2) else row).find?
        fun row => (row.1 : Int) = j).map (·.2) =
      if j = i then ((rows.find? fun row => (row.1 : Int) = j).map (·.2)).map f
      else (rows.find? fun row => (row.1 : Int) = j).map (·.2) := by
    intro rows
    induction rows with
    | nil => simp
    | cons row rest ih =>
      rw [List.map_cons, List.find?_cons, List.find?_cons]
      by_cases hi : (row.1 : Int) = i
      · by_cases hj : (row.1 : Int) = j
        · have : j = i := hj.symm.trans hi
          simp [hi, this]
        · rw [if_pos hi]
          simp only [hj, decide_false]
          exact ih
      · rw [if_neg hi]
        by_cases hj : (row.1 : Int) = j
        · have : j ≠ i := fun h => hi (hj.trans h)
          simp [hj, this]
        · simp only [hj, decide_false]
          exact ih
  exact hfind t.rows

theorem get?_modify_self {t : Table β} {i : Int} {b : β} (h : t.get? i = some b) (f : β → β) :
    (t.modify i f).get? i = some (f b) := by
  rw [get?_modify, if_pos rfl, h]
  rfl

theorem get?_modify_of_ne (t : Table β) {i j : Int} (h : j ≠ i) (f : β → β) :
    (t.modify i f).get? j = t.get? j := by
  rw [get?_modify, if_neg h]

/-! ## Erasing -/

theorem indices_erase_sublist (t : Table β) (i : Int) :
    (t.erase i).indices.Sublist t.indices :=
  List.filter_sublist.map _

theorem WellFormed.erase {t : Table β} (ht : t.WellFormed) (i : Int) : (t.erase i).WellFormed :=
  ⟨ht.increasing.sublist (indices_erase_sublist t i),
    fun j hj => ht.bounded j ((indices_erase_sublist t i).subset hj)⟩

theorem get?_erase (t : Table β) (i j : Int) :
    (t.erase i).get? j = if j = i then none else t.get? j := by
  rw [get?, get?, erase, List.find?_filter]
  split
  · rename_i h
    rw [Option.map_eq_none_iff, List.find?_eq_none]
    intro row _
    simp [h]
  · rename_i h
    congr 2
    funext row
    by_cases hj : (row.1 : Int) = j
    · simp [hj, h]
    · simp [hj]

theorem get?_of_get?_erase {t : Table β} {i j : Int} {b : β} (h : (t.erase i).get? j = some b) :
    j ≠ i ∧ t.get? j = some b := by
  rw [get?_erase] at h
  split at h
  · cases h
  · exact ⟨by assumption, h⟩

end Discretization.Table
