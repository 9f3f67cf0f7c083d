import Discretization.Generative
import Discretization.Proofs.Numbers
import Mathlib.Algebra.Order.Field.Basic
import Mathlib.Algebra.Order.Field.Rat
import Mathlib.Tactic.Linarith

/-!
# Derived Supports Stay inside Their Elements

Read over the rationals, a basis within an interval is rescaled to offsets from zero to one, and
every element between two neighbouring supports gets one point at each offset. The points of one
element follow each other in the order of the offsets, and the elements in the order of the
supports, so the whole list is a table with a row for each element. A point does not leave its
element; points at offsets strictly between zero and one are apart from all supports.

## Main results

* `GenerativeInfo.uniform?_eq_ok_iff`: which bases within an interval are accepted, and as what;
* `GenerativeInfo.getElem?_points`: the table of the points;
* `GenerativeInfo.pairwise_points`, `GenerativeInfo.not_mem_points`: points at inner offsets are in
  order and apart from the supports;
* `subdivides_of_uniform`: uniformly derived supports subdivide the elements.
-/

namespace Discretization

namespace GenerativeInfo

/-! ## The table of points -/

section Layout

variable {α : Type} [Scalar α] {basis existing : List α}

theorem length_points (basis existing : List α) :
    (points basis existing).length = basis.length * (existing.length - 1) := by
  simp [points, List.length_flatMap, Nat.mul_comm]

/-- The points are a table with a row for each element and a column for each offset. -/
theorem getElem?_points {j i : ℕ} {s s' offset : α} (hs : existing[j]? = some s)
    (hs' : existing[j + 1]? = some s') (hoffset : basis[i]? = some offset) :
    (points basis existing)[j * basis.length + i]? = some (point s s' offset) := by
  have he : (existing.zip existing.tail)[j]? = some (s, s') := by
    rw [List.getElem?_zip_eq_some, List.getElem?_tail]
    exact ⟨hs, hs'⟩
  have hi : i < basis.length := (List.getElem?_eq_some_iff.1 hoffset).1
  unfold points
  clear hs hs'
  generalize existing.zip existing.tail = elements at he
  -- the rows of the elements before are skipped one by one
  induction elements generalizing j with
  | nil => cases he
  | cons e rest ih =>
    rw [List.flatMap_cons]
    cases j with
    | zero =>
      cases he
      rw [Nat.zero_mul, Nat.zero_add, List.getElem?_append_left (by simpa using hi),
        List.getElem?_map, hoffset]
      rfl
    | succ j =>
      rw [Nat.succ_mul, Nat.add_right_comm, List.getElem?_append_right (by simp),
        List.length_map, Nat.add_sub_cancel]
      exact ih he

end Layout

/-! ## Points in their elements -/

section Rationals

variable {basis existing : List ℚ} {s s' t t' : ℚ}

theorem points_cons_cons (basis : List ℚ) (s s' : ℚ) (rest : List ℚ) :
    points basis (s :: s' :: rest) = basis.map (point s s') ++ points basis (s' :: rest) :=
  rfl

/-- A point does not leave its element. -/
theorem point_mem (hs : s ≤ s') (ht : 0 ≤ t ∧ t ≤ 1) : s ≤ point s s' t ∧ point s s' t ≤ s' := by
  have hwidth : 0 ≤ s' - s := sub_nonneg.2 hs
  have hlow : 0 ≤ t * (s' - s) := mul_nonneg ht.1 hwidth
  have hhigh : t * (s' - s) ≤ s' - s := mul_le_of_le_one_left hwidth ht.2
  unfold point
  exact ⟨by linarith, by linarith⟩

/-- At an inner offset it does not meet the ends. -/
theorem point_mem_inner (hs : s < s') (ht : 0 < t ∧ t < 1) :
    s < point s s' t ∧ point s s' t < s' := by
  have hwidth : 0 < s' - s := sub_pos.2 hs
  have hlow : 0 < t * (s' - s) := mul_pos ht.1 hwidth
  have hhigh : t * (s' - s) < s' - s := mul_lt_of_lt_one_left hwidth ht.2
  unfold point
  exact ⟨by linarith, by linarith⟩

theorem point_lt_point (hs : s < s') (ht : t < t') : point s s' t < point s s' t' := by
  have hmul : t * (s' - s) < t' * (s' - s) := mul_lt_mul_of_pos_right ht (sub_pos.2 hs)
  unfold point
  linarith

variable (hinner : ∀ t ∈ basis, 0 < t ∧ t < 1)

include hinner

/-- Points at inner offsets are above the first support. -/
theorem lt_of_mem_points {x : ℚ} (hexisting : (s :: existing).Pairwise (· < ·))
    (hx : x ∈ points basis (s :: existing)) : s < x := by
  induction existing generalizing s with
  | nil => cases hx
  | cons s' rest ih =>
    obtain ⟨hs, hrest⟩ := List.pairwise_cons.1 hexisting
    have hss' : s < s' := hs s' List.mem_cons_self
    rw [points_cons_cons, List.mem_append] at hx
    rcases hx with hx | hx
    · obtain ⟨t, ht, rfl⟩ := List.mem_map.1 hx
      exact (point_mem_inner hss' (hinner t ht)).1
    · exact hss'.trans (ih hrest hx)

/-- Points at inner offsets are in order if the offsets are. -/
theorem pairwise_points (hbasis : basis.Pairwise (· < ·)) (hexisting : existing.Pairwise (· < ·)) :
    (points basis existing).Pairwise (· < ·) := by
  induction hexisting with
  | nil => exact .nil
  | @cons s rest hs hrest ih =>
    cases rest with
    | nil => exact .nil
    | cons s' rest =>
      have hss' : s < s' := hs s' List.mem_cons_self
      rw [points_cons_cons, List.pairwise_append, List.pairwise_map]
      refine ⟨hbasis.imp (point_lt_point hss'), ih, fun x hx y hy => ?_⟩
      -- the support between the first element and the others is between their points
      obtain ⟨t, ht, rfl⟩ := List.mem_map.1 hx
      exact (point_mem_inner hss' (hinner t ht)).2.trans (lt_of_mem_points hinner hrest hy)

/-- Points at inner offsets are apart from the supports. -/
theorem not_mem_points {x : ℚ} (hexisting : existing.Pairwise (· < ·))
    (hx : x ∈ points basis existing) : x ∉ existing := by
  induction hexisting with
  | nil => cases hx
  | @cons s rest hs hrest ih =>
    cases rest with
    | nil => cases hx
    | cons s' rest =>
      have hss' : s < s' := hs s' List.mem_cons_self
      rw [points_cons_cons, List.mem_append] at hx
      rw [List.mem_cons, not_or]
      rcases hx with hx | hx
      · obtain ⟨t, ht, rfl⟩ := List.mem_map.1 hx
        obtain ⟨hlow, hhigh⟩ := point_mem_inner hss' (hinner t ht)
        refine ⟨hlow.ne', fun hmem => ?_⟩
        -- the later supports are not below the end of the element
        rcases List.mem_cons.1 hmem with heq | hmem
        · exact hhigh.ne heq
        · exact lt_asymm hhigh ((List.pairwise_cons.1 hrest).1 _ hmem)
      · exact ⟨(hss'.trans (lt_of_mem_points hinner hrest hx)).ne', ih hx⟩

end Rationals

/-! ## Bases in an interval -/

section Interval

variable {basis : List ℚ} {lower upper b : ℚ} {label : Label}

/-- A position between the ends has an offset from zero to one. -/
theorem offset_mem (hbounds : lower < upper) (hb : lower ≤ b ∧ b ≤ upper) :
    0 ≤ offset lower upper b ∧ offset lower upper b ≤ 1 := by
  have hwidth : 0 < upper - lower := sub_pos.2 hbounds
  exact ⟨div_nonneg (sub_nonneg.2 hb.1) hwidth.le,
    (div_le_one hwidth).2 (sub_le_sub_right hb.2 lower)⟩

theorem offset_mem_inner (hbounds : lower < upper) (hb : lower < b ∧ b < upper) :
    0 < offset lower upper b ∧ offset lower upper b < 1 := by
  have hwidth : 0 < upper - lower := sub_pos.2 hbounds
  exact ⟨div_pos (sub_pos.2 hb.1) hwidth, (div_lt_one hwidth).2 (sub_lt_sub_right hb.2 lower)⟩

theorem offset_lt_offset (hbounds : lower < upper) {b b' : ℚ} (hb : b < b') :
    offset lower upper b < offset lower upper b' :=
  div_lt_div_of_pos_right (sub_lt_sub_right hb lower) (sub_pos.2 hbounds)

/-- A basis within an interval is refused only if it is empty or its label is a selector. -/
theorem uniform?_eq_ok_iff (hbounds : lower < upper) (hbasis : ∀ b ∈ basis, lower ≤ b ∧ b ≤ upper)
    {info : GenerativeInfo ℚ} : uniform? basis label lower upper = .ok info ↔
      basis ≠ [] ∧ label.isSelector = false ∧
        info = .uniform (basis.map (offset lower upper)) label := by
  -- with the bounds given, only the checks of the basis and of its label are left
  have hinside : outside lower upper basis = false := by
    rw [outside, Bool.and_eq_false_iff, List.any_eq_false]
    right
    intro b hb
    simpa using hbasis b hb
  unfold uniform?
  rw [hinside]
  cases basis with
  | nil => simp
  | cons b rest =>
    cases label.isSelector with
    | true => simp [hbounds]
    | false => simpa [hbounds] using eq_comm

end Interval

end GenerativeInfo

/-- A basis within an interval subdivides the elements between supports in order: every element gets
one point at each position of the basis, as far from its lower end as the position is from the lower
bound of the interval, both in proportion to their widths, and no point leaves its element. Points
at inner positions in order are in order as a whole, and none of them is a support. -/
theorem subdivides_of_uniform {basis existing : List ℚ} {lower upper : ℚ} (label : Label)
    (owner : String) (hbounds : lower < upper) (hbasis : ∀ b ∈ basis, lower ≤ b ∧ b ≤ upper)
    (hexisting : existing.Pairwise (· < ·)) (hseveral : 2 ≤ existing.length) :
    ((∃ info, GenerativeInfo.uniform? basis label lower upper = .ok info) ↔
      basis ≠ [] ∧ label.isSelector = false) ∧
    ∀ info, GenerativeInfo.uniform? basis label lower upper = .ok info →
      ∃ derived, info.makeSupports existing owner = .ok derived ∧
        derived.length = basis.length * (existing.length - 1) ∧
        (∀ (j i : ℕ) (s s' b : ℚ), existing[j]? = some s → existing[j + 1]? = some s' →
          basis[i]? = some b → ∃ v, derived[j * basis.length + i]? = some v ∧
            v = s + (b - lower) / (upper - lower) * (s' - s) ∧ s ≤ v ∧ v ≤ s') ∧
        (basis.Pairwise (· < ·) → (∀ b ∈ basis, lower < b ∧ b < upper) →
          derived.Pairwise (· < ·) ∧ ∀ v ∈ derived, v ∉ existing) := by
  refine ⟨?_, fun info hinfo => ?_⟩
  · simp [GenerativeInfo.uniform?_eq_ok_iff hbounds hbasis]
  obtain ⟨-, -, rfl⟩ := (GenerativeInfo.uniform?_eq_ok_iff hbounds hbasis).1 hinfo
  refine ⟨GenerativeInfo.points (basis.map (GenerativeInfo.offset lower upper)) existing, ?_, ?_,
    fun j i s s' b hs hs' hb => ?_, fun hordered hinner => ?_⟩
  · rw [GenerativeInfo.makeSupports, if_neg (by omega)]
    rfl
  · rw [GenerativeInfo.length_points, List.length_map]
  · -- the list of points is read by element first and by position second
    have hoffset : (basis.map (GenerativeInfo.offset lower upper))[i]? =
        some (GenerativeInfo.offset lower upper b) := by
      rw [List.getElem?_map, hb]
      rfl
    have hpoint := GenerativeInfo.getElem?_points hs hs' hoffset
    rw [List.length_map] at hpoint
    have hss' : s < s' := by
      obtain ⟨hj, rfl⟩ := List.getElem?_eq_some_iff.1 hs
      obtain ⟨hj', rfl⟩ := List.getElem?_eq_some_iff.1 hs'
      exact List.pairwise_iff_getElem.1 hexisting j (j + 1) hj hj' j.lt_succ_self
    have hmem := hbasis b (List.mem_of_getElem? hb)
    exact ⟨_, hpoint, rfl,
      GenerativeInfo.point_mem hss'.le (GenerativeInfo.offset_mem hbounds hmem)⟩
  · -- inner positions stay clear of both ends of an element
    have hoffsets : ∀ t ∈ basis.map (GenerativeInfo.offset lower upper), 0 < t ∧ t < 1 := by
      intro t ht
      obtain ⟨b, hb, rfl⟩ := List.mem_map.1 ht
      exact GenerativeInfo.offset_mem_inner hbounds (hinner b hb)
    have hoffset : (basis.map (GenerativeInfo.offset lower upper)).Pairwise (· < ·) :=
      List.pairwise_map.2 (hordered.imp (GenerativeInfo.offset_lt_offset hbounds))
    exact ⟨GenerativeInfo.pairwise_points hoffsets hoffset hexisting,
      fun v hv => GenerativeInfo.not_mem_points hoffsets hexisting hv⟩

/-- Two positions of the interval from -1 to 1 in two elements of different widths. -/
theorem subdivides_of_uniform_uneven :
    let basis : List ℚ := [-1 / 2, 1 / 2]
    let existing : List ℚ := [0, 1, 3]
    (-1 : ℚ) < 1 ∧ (∀ b ∈ basis, -1 < b ∧ b < 1) ∧ basis.Pairwise (· < ·) ∧
      existing.Pairwise (· < ·) ∧ 2 ≤ existing.length ∧
      ∃ info, GenerativeInfo.uniform? basis .collocation (-1) 1 = .ok info ∧
        ∃ derived, info.makeSupports existing "t" = .ok derived ∧
          derived = [1 / 4, 3 / 4, 3 / 2, 5 / 2] ∧ derived.Pairwise (· < ·) := by
  intro basis existing
  have hbounds : (-1 : ℚ) < 1 := by decide +kernel
  have hinner : ∀ b ∈ basis, -1 < b ∧ b < 1 := by decide +kernel
  have hordered : basis.Pairwise (· < ·) := by decide +kernel
  have hbasis : ∀ b ∈ basis, -1 ≤ b ∧ b ≤ 1 := fun b hb => ⟨(hinner b hb).1.le, (hinner b hb).2.le⟩
  have hexisting : existing.Pairwise (· < ·) := by decide +kernel
  obtain ⟨haccepted, hderives⟩ :=
    subdivides_of_uniform .collocation "t" hbounds hbasis hexisting (by decide)
  obtain ⟨info, hinfo⟩ := haccepted.2 ⟨by decide, by decide⟩
  obtain ⟨derived, hmakes, -, -, hall⟩ := hderives info hinfo
  have hvalues : (GenerativeInfo.uniform? basis .collocation (-1) 1 >>= fun info =>
      info.makeSupports existing "t").toOption = some [1 / 4, 3 / 4, 3 / 2, 5 / 2] := by
    decide +kernel
  rw [hinfo] at hvalues
  change (info.makeSupports existing "t").toOption = _ at hvalues
  rw [hmakes] at hvalues
  exact ⟨hbounds, hinner, hordered, hexisting, by decide, info, hinfo, derived, hmakes,
    Option.some.inj hvalues, (hall hordered hinner).1⟩

end Discretization
