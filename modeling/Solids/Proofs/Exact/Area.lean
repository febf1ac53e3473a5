import Mathlib.Algebra.BigOperators.Group.List.Basic
import Solids.Proofs.Exact.Number
import Solids.Proofs.Planar.Filling

/-!
# Area of a triangulation

Over exact numbers the signed area of an outline is what `Vec2.perp` brings along its border
(`Outline.signedArea_eq_along`), so a triangle brings its own. Cutting a corner off moves the area
of its triangle from the ring to the triangles, and a corner that is dropped takes along less than
the tolerance (`Outline.Clipping.exists_abs_sub_le`).

* `Outline.abs_area_triangulate_sub_le`: the areas of the triangles add up to that of the outline,
  to within the tolerance for every corner dropped. The outline may cross itself; then its parts
  count as often as it goes around them.
-/

namespace Solids

variable [Reading]

/-- What lies to the left of a step lies to the right of the step back. -/
theorem Vec2.alternating_perp : Alternating (perp : Vec2 ℝ → Vec2 ℝ → ℝ) := fun p q => by
  simp only [perp]
  ring

/-- Twice the signed area of a triangle of the plane, as of an outline. -/
def Triangle.signedArea {α : Type} [Scalar α] (t : Triangle (Vec2 α)) : α :=
  Outline.signedArea #[t.a, t.b, t.c]

namespace Outline

variable {o : Outline ℝ} {ring : List o.Corner} {ts : List (Triangle o.Corner)} {k : Nat}

/-- What lies to the left of the step from one corner to another, as seen from the origin. -/
noncomputable def swept (o : Outline ℝ) (i j : o.Corner) : ℝ := (o.point i).perp (o.point j)

/-- What lies to the left of a step between corners lies to the right of the step back. -/
theorem alternating_swept (o : Outline ℝ) : Alternating o.swept :=
  Vec2.alternating_perp.comp o.point

/-- The signed area of an outline is what lies to the left of its border. -/
theorem signedArea_eq_along (o : Outline ℝ) :
    o.signedArea = along o.swept true (List.finRange o.size) := by
  have hpoints : o.toList = (List.finRange o.size).map o.point := by
    rw [← List.ofFn_eq_map]
    exact List.ofFn_getElem.symm
  change _ = along (fun i j => (o.point i).perp (o.point j)) true _
  rw [← along_map o.point, ← hpoints, signedArea, Scalar.sum_eq_sum]
  rfl

/-- Walked in the direction of its triangles, an outline has its area to the left. -/
theorem along_walk (o : Outline ℝ) : along o.swept true o.walk = |o.signedArea| := by
  rw [walk, Scalar.zero_eq]
  split
  · next harea =>
    rw [along_true_reverse o.alternating_swept, ← signedArea_eq_along, abs_of_neg harea]
  · next harea => rw [← signedArea_eq_along, abs_of_nonneg (not_lt.1 harea)]

/-- The signed area of a triangle is what lies to the left of its border. -/
theorem around_swept_singleton (t : Triangle o.Corner) :
    around o.swept [t] = (o.points t).signedArea := by
  rw [around_singleton, Triangle.signedArea, signedArea, Scalar.sum_eq_sum]
  simp [steps, points, Triangle.map, swept, add_assoc]

/-- The signed areas of triangles add up to what lies to the left of their borders. -/
theorem around_swept (ts : List (Triangle o.Corner)) :
    around o.swept ts = (ts.map fun t => (o.points t).signedArea).sum := by
  induction ts with
  | nil => rfl
  | cons t ts ih => rw [around_cons, ih, around_swept_singleton, List.map_cons, List.sum_cons]

/-- The way over the corners of a triangle turns by its signed area. -/
theorem turn_eq_signedArea (t : Triangle (Vec2 ℝ)) : t.turn = t.signedArea := by
  rw [Triangle.signedArea, signedArea, Scalar.sum_eq_sum]
  simp only [Triangle.turn, steps, Vec2.perp]
  change (t.b.x - t.a.x) * (t.c.y - t.b.y) - (t.b.y - t.a.y) * (t.c.x - t.b.x) = _
  simp
  ring

/-- A corner that hardly turns takes along less than the tolerance. -/
theorem abs_around_le_of_turn {t : Triangle o.Corner} (h : |(o.points t).turn| < tolerance) :
    |around o.swept [t]| ≤ tolerance := by
  rw [around_swept_singleton, ← turn_eq_signedArea]
  exact h.le

/-- Triangles left out for lack of a turn take along less than the tolerance each. -/
theorem exists_abs_filter_sub_le (ts : List (Triangle o.Corner)) :
    let kept := ts.filter fun t => tolerance ≤ Scalar.abs (o.points t).turn
    ∃ d, kept.length + d = ts.length ∧
      |around o.swept kept - around o.swept ts| ≤ tolerance * (d : ℝ) := by
  induction ts with
  | nil => exact ⟨0, rfl, by simp⟩
  | cons t ts ih =>
    obtain ⟨d, hd, habs⟩ := ih
    dsimp only at hd habs ⊢
    by_cases hturn : tolerance ≤ Scalar.abs (o.points t).turn
    · rw [List.filter_cons, if_pos (decide_eq_true hturn), around_cons, around_cons t ts,
        add_sub_add_left_eq_sub]
      exact ⟨d, by rw [List.length_cons, List.length_cons, ← hd, Nat.succ_add], habs⟩
    · rw [List.filter_cons, if_neg (mt of_decide_eq_true hturn), around_cons t ts]
      have ht := abs_around_le_of_turn (not_le.1 hturn)
      refine ⟨d + 1, by rw [List.length_cons, ← hd, Nat.add_assoc], ?_⟩
      rw [add_comm, ← sub_sub, Nat.cast_add_one, mul_add_one]
      exact (abs_sub _ _).trans (add_le_add habs ht)

/-- What lies to the left of a ring is the area of its triangles, but for less than the tolerance
    for every corner that is dropped. -/
theorem Clipping.exists_abs_sub_le (h : o.Clipping k ring ts) (hnodup : ring.Nodup)
    (hlength : 2 ≤ ring.length) : ∃ d, ts.length + d = ring.length - 2 ∧
      |around o.swept ts - along o.swept true ring| ≤ tolerance * (d : ℝ) := by
  induction h with
  | rest hshort =>
    rw [← around_fan o.alternating_swept hlength, ← length_fan]
    exact exists_abs_filter_sub_le _
  | stalled =>
    rw [← around_fan o.alternating_swept hlength, length_fan]
    exact ⟨0, rfl, by simp⟩
  | @round ring cut ts j k hlong hfind _ ih =>
    have herase := List.length_erase_of_mem (mem_of_findEar?_eq_some o hfind)
    obtain ⟨t, ht, rfl, hcut⟩ := exists_of_findEar?_eq_some hfind
    dsimp only at herase
    obtain ⟨d, hd, habs⟩ := ih (hnodup.erase t.b) (by omega)
    rw [along_eq_erase_add o.alternating_swept hnodup ht]
    rcases hcut with ⟨rfl, hflat⟩ | rfl
    · -- The ring loses a corner and what little its turn goes around.
      have hturn := abs_around_le_of_turn (of_decide_eq_true hflat)
      refine ⟨d + 1, by rw [List.nil_append]; omega, ?_⟩
      rw [List.nil_append, ← sub_sub, Nat.cast_add_one, mul_add_one]
      exact (abs_sub _ _).trans (add_le_add habs hturn)
    · refine ⟨d, by rw [List.length_append, List.length_singleton]; omega, ?_⟩
      rw [around_append, add_comm, add_sub_add_right_eq_sub]
      exact habs

/-- An outline of less than three corners has no area. -/
theorem signedArea_of_size_lt (h : o.size < 3) : o.signedArea = 0 := by
  rw [signedArea_eq_along]
  have hlength : (List.finRange o.size).length < 3 := by rwa [List.length_finRange]
  generalize List.finRange o.size = ring at hlength
  match ring, hlength with
  | [], _ => rfl
  | [i], _ =>
    change o.swept i i + 0 = 0
    linarith [o.alternating_swept i i]
  | [i, j], _ => exact (around_fan o.alternating_swept le_rfl).symm

/-- The signed areas of the triangles of an outline add up to the magnitude of its own, but for at
    most the tolerance for every corner that was dropped. -/
theorem abs_area_triangulate_sub_le (o : Outline ℝ) :
    |(o.triangulate.map fun t => (o.points t).signedArea).sum - abs o.signedArea| ≤
      tolerance * ((o.size - 2 - o.triangulate.length : ℕ) : ℝ) := by
  by_cases hsize : o.size < 3
  · rw [signedArea_of_size_lt hsize, triangulate, if_pos hsize, List.map_nil, List.sum_nil,
      abs_zero, sub_zero, abs_zero]
    exact mul_nonneg tolerance_pos.le (Nat.cast_nonneg _)
  · have hsize : 3 ≤ o.size := not_lt.1 hsize
    obtain ⟨k, -, hclipping⟩ := exists_clipping o.walk
    rw [← triangulate_eq_clip hsize] at hclipping
    obtain ⟨d, hd, habs⟩ := hclipping.exists_abs_sub_le o.nodup_walk (by rw [length_walk]; omega)
    rw [length_walk] at hd
    rw [← around_swept, ← along_walk, ← hd, Nat.add_sub_cancel_left]
    exact habs

end Outline

end Solids
