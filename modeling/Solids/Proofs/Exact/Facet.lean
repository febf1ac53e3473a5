import Mathlib.Analysis.SpecialFunctions.Trigonometric.Basic
import Solids.Hull.Face
import Solids.Proofs.Exact.Point
import Solids.Proofs.Mesh.WellFormed

/-!
# Sides of triangles of space

Over exact numbers a point lies in front of a triangle if the two span a positive volume
(`Triangle.volumeTo`), which its height above the plane of the triangle is in proportion to
(`Triangle.height_eq`). A facet of a hull is turned so that the inside is behind it, and measures
the height above its own corners (`Hull.Facet.height_make`).

Where a point is in front of one of two triangles that meet at an edge, and not of the other, the
triangle from the edge to the point is between the two: what lies behind both of them lies behind it
(`Triangle.volumeTo_le_of_horizon`). If two such triangles start at one corner, and the other end of
each edge is behind both of them, then the edges lead in one direction
(`Triangle.sub_mul_eq_of_horizon`).
-/

namespace Solids

/-! ## Directions -/

namespace Vec3

variable [Reading]

/-- A vector scaled to length one, whatever its length. -/
theorem normalizeOrZero_eq (n : Vec3 ℝ) : n.normalizeOrZero = n * (1 / n.length) := by
  rw [normalizeOrZero, Scalar.one_eq, Scalar.zero_eq]
  split
  · rfl
  · next h =>
    -- Only the zero vector has no usable length.
    have hzero : 1 / n.length = 0 :=
      le_antisymm (not_lt.1 fun hpos => h ⟨rfl, hpos⟩) (one_div_nonneg.2 n.length_nonneg)
    rw [hzero]
    simp only [zero, mul_eq, mul_zero, Scalar.zero_eq]

/-- A vector scaled to length one is not longer. -/
theorem lengthSq_normalizeOrZero_le (n : Vec3 ℝ) : n.normalizeOrZero.lengthSq ≤ 1 := by
  have hquotient : n.length * n.length * (1 / n.length * (1 / n.length)) =
      (n.length * n.length) / (n.length * n.length) := by ring
  rw [normalizeOrZero_eq, lengthSq_mul, ← length_mul_length, hquotient]
  exact div_self_le_one _

/-- In a direction a vector is not longer than it is. -/
theorem abs_dot_le_length {n : Vec3 ℝ} (hn : n.lengthSq ≤ 1) (v : Vec3 ℝ) :
    |n.dot v| ≤ v.length := by
  refine Real.abs_le_sqrt ?_
  have hcross := (n.cross v).lengthSq_nonneg
  have hlength := mul_le_mul_of_nonneg_right hn v.lengthSq_nonneg
  have hlagrange : n.dot v ^ 2 = n.lengthSq * v.lengthSq - (n.cross v).lengthSq := by
    simp only [lengthSq_eq, dot_eq, cross]
    ring
  rw [hlagrange]
  exact (sub_le_self _ hcross).trans (hlength.trans_eq (one_mul _))

/-- Scaled to length one, a vector is of length one, if it is not zero. -/
theorem lengthSq_normalizeOrZero {v : Vec3 ℝ} (h : v.lengthSq ≠ 0) :
    v.normalizeOrZero.lengthSq = 1 := by
  rw [← length_mul_length] at h
  have hquotient : v.length * v.length * (1 / v.length * (1 / v.length)) =
      (v.length * v.length) / (v.length * v.length) := by ring
  rw [normalizeOrZero_eq, lengthSq_mul, ← length_mul_length, hquotient, div_self h]

/-- A point is not farther from a plane than from a line in it. -/
theorem abs_dot_le_length_cross {n d : Vec3 ℝ} (hn : n.lengthSq ≤ 1) (hd : d.lengthSq = 1)
    (hlevel : n.dot d = 0) (v : Vec3 ℝ) : |n.dot v| ≤ (v.cross d).length := by
  -- At right angles to both, there is a vector that is not longer than one.
  have hside : (n.cross d).lengthSq ≤ 1 := by
    have hlagrange : (n.cross d).lengthSq = n.lengthSq * d.lengthSq - n.dot d * n.dot d := by
      simp only [lengthSq_eq, dot_eq, cross]
      ring
    rw [hlagrange, hd, hlevel]
    linarith
  have hdot : (n.cross d).dot (v.cross d) = n.dot v := by
    have hidentity : (n.cross d).dot (v.cross d) =
        n.dot v * d.lengthSq - n.dot d * v.dot d := by
      simp only [lengthSq_eq, dot_eq, cross]
      ring
    rw [hidentity, hd, hlevel]
    ring
  rw [← hdot]
  exact abs_dot_le_length hside _

/-- The area that two vectors span grows with either of them. -/
theorem lengthSq_cross_mul (v w : Vec3 ℝ) (s : ℝ) :
    (w.cross (v * s)).lengthSq = (v.cross w).lengthSq * (s * s) := by
  simp only [lengthSq_eq, cross, mul_eq]
  ring

end Vec3

/-! ## Volumes -/

namespace Triangle

/-- The signed distance of a point in front of a triangle. -/
def height {α : Type} [Scalar α] (t : Triangle (Vec3 α)) (p : Vec3 α) : α :=
  let normal := ((t.b - t.a).cross (t.c - t.a)).normalizeOrZero
  normal.dot p - normal.dot t.a

variable [Reading] {t : Triangle (Vec3 ℝ)} {o p q u v v' w w' x y z : Vec3 ℝ}

/-- The volume that a triangle and a point span, positive if the point lies in front. -/
noncomputable def volumeTo (t : Triangle (Vec3 ℝ)) (p : Vec3 ℝ) : ℝ :=
  Vec3.volume (p - t.a) (t.b - t.a) (t.c - t.a)

/-- The volume in components. -/
theorem volumeTo_eq (t : Triangle (Vec3 ℝ)) (p : Vec3 ℝ) : t.volumeTo p =
    (p.x - t.a.x) * ((t.b.y - t.a.y) * (t.c.z - t.a.z) - (t.c.y - t.a.y) * (t.b.z - t.a.z)) +
    (p.y - t.a.y) * ((t.b.z - t.a.z) * (t.c.x - t.a.x) - (t.c.z - t.a.z) * (t.b.x - t.a.x)) +
    (p.z - t.a.z) * ((t.b.x - t.a.x) * (t.c.y - t.a.y) - (t.c.x - t.a.x) * (t.b.y - t.a.y)) := rfl

/-- It does not matter with which corner a triangle starts. -/
theorem volumeTo_rotate (u v w p : Vec3 ℝ) : volumeTo ⟨v, w, u⟩ p = volumeTo ⟨u, v, w⟩ p := by
  simp only [volumeTo_eq]
  ring

/-- What is in front of a triangle is behind it, when it is turned around. -/
theorem volumeTo_flip (t : Triangle (Vec3 ℝ)) (p : Vec3 ℝ) : t.flip.volumeTo p = -t.volumeTo p := by
  simp only [volumeTo_eq, flip]
  ring

/-- The corners of a triangle are in its plane. -/
theorem volumeTo_corner (hx : x ∈ t.toList) : t.volumeTo x = 0 := by
  simp only [toList, List.mem_cons, List.not_mem_nil, or_false] at hx
  rcases hx with rfl | rfl | rfl <;> simp only [volumeTo_eq] <;> ring

/-- Four points that span a volume are different. -/
theorem nodup_of_volumeTo_ne_zero (h : t.volumeTo p ≠ 0) : (p :: t.toList).Nodup := by
  refine List.nodup_cons.2 ⟨fun hp => h (volumeTo_corner hp), ?_⟩
  obtain ⟨a, b, c⟩ := t
  simp only [toList, List.nodup_cons, List.mem_cons, List.not_mem_nil, or_false, not_or,
    not_false_eq_true, List.nodup_nil, and_true]
  refine ⟨⟨?_, ?_⟩, ?_⟩ <;> rintro rfl <;> refine h ?_ <;> simp only [volumeTo_eq] <;> ring

/-- On the way from one point to another the volume changes by shares. -/
theorem volumeTo_lerp (t : Triangle (Vec3 ℝ)) (p q : Vec3 ℝ) (s : ℝ) :
    t.volumeTo (p.lerp q s) = (1 - s) * t.volumeTo p + s * t.volumeTo q := by
  simp only [volumeTo_eq, Vec3.lerp_eq]
  ring

/-- A triangle may be read from any of its edges. -/
theorem exists_volumeTo_eq {β : Type} {t : Triangle β} {e : β × β} (he : e ∈ t.edges)
    (point : β → Vec3 ℝ) : ∃ i ∈ t.toList, ∀ p,
      (t.map point).volumeTo p = volumeTo ⟨point e.1, point e.2, point i⟩ p := by
  obtain ⟨a, b, c⟩ := t
  simp only [edges, List.mem_cons, List.not_mem_nil, or_false] at he
  rcases he with rfl | rfl | rfl
  · exact ⟨c, by simp [toList], fun p => rfl⟩
  · exact ⟨a, by simp [toList], fun p => (volumeTo_rotate _ _ _ p).symm⟩
  · exact ⟨b, by simp [toList], fun p => volumeTo_rotate _ _ _ p⟩

/-- From the reverse of an edge, everything is on the other side. -/
theorem volumeTo_swap (u v w p : Vec3 ℝ) : volumeTo ⟨v, u, w⟩ p = -volumeTo ⟨u, v, w⟩ p := by
  simp only [volumeTo_eq]
  ring

/-- One of two points is in front of the triangle from an edge to the other, or the other way
    around. -/
theorem volumeTo_exchange (u v w p : Vec3 ℝ) : volumeTo ⟨u, v, p⟩ w = -volumeTo ⟨u, v, w⟩ p := by
  simp only [volumeTo_eq]
  ring

/-- Volumes over three triangles at an edge depend on each other. -/
theorem volumeTo_mul (u v w z q x : Vec3 ℝ) :
    volumeTo ⟨u, v, w⟩ z * volumeTo ⟨u, v, q⟩ x =
      volumeTo ⟨u, v, w⟩ x * volumeTo ⟨u, v, q⟩ z +
        volumeTo ⟨u, v, w⟩ q * volumeTo ⟨u, v, z⟩ x := by
  simp only [volumeTo_eq]
  ring

/-! ## Horizons -/

/-- If a point is in front of one of two triangles at an edge and not of the other, and another
    point is behind both, then it is behind the triangle from the edge to the first point. So is
    what lies behind both. -/
theorem volumeTo_le_of_horizon (hseen : 0 < volumeTo ⟨u, v, w⟩ q)
    (hunseen : volumeTo ⟨v, u, z⟩ q ≤ 0) (hconvex : volumeTo ⟨u, v, w⟩ z ≤ 0)
    (ho : volumeTo ⟨u, v, w⟩ o < 0) (ho' : volumeTo ⟨v, u, z⟩ o < 0) :
    volumeTo ⟨u, v, q⟩ o < 0 ∧ ∀ x, volumeTo ⟨u, v, w⟩ x ≤ 0 → volumeTo ⟨v, u, z⟩ x ≤ 0 →
      volumeTo ⟨u, v, q⟩ x ≤ 0 := by
  have hq : volumeTo ⟨u, v, q⟩ z ≤ 0 := by
    rw [volumeTo_exchange, ← volumeTo_swap]
    exact hunseen
  have hproduct (x : Vec3 ℝ) : volumeTo ⟨u, v, w⟩ z * volumeTo ⟨u, v, q⟩ x =
      volumeTo ⟨u, v, w⟩ x * volumeTo ⟨u, v, q⟩ z -
        volumeTo ⟨u, v, w⟩ q * volumeTo ⟨v, u, z⟩ x := by
    rw [volumeTo_mul, volumeTo_swap u v z, mul_neg, sub_neg_eq_add]
  have hright : 0 < volumeTo ⟨u, v, w⟩ z * volumeTo ⟨u, v, q⟩ o := by
    have hfirst := mul_nonneg_of_nonpos_of_nonpos ho.le hq
    have hsecond := mul_neg_of_pos_of_neg hseen ho'
    rw [hproduct]
    linarith
  -- So the two triangles do not lie in one plane.
  have hbend : volumeTo ⟨u, v, w⟩ z < 0 :=
    hconvex.lt_of_ne fun hflat => by simp [hflat] at hright
  refine ⟨neg_of_mul_pos_right hright hconvex, fun x hx hx' => ?_⟩
  have hfirst := mul_nonneg_of_nonpos_of_nonpos hx hq
  have hsecond := mul_nonpos_of_nonneg_of_nonpos hseen.le hx'
  refine nonpos_of_mul_nonneg_right ?_ hbend
  rw [hproduct]
  linarith

/-- An edge does not lean toward a point in front of a triangle at another edge from the same
    corner, if all three lie in a plane with that corner and the edge ends behind the triangle. -/
theorem volumeTo_nonneg_of_horizon (ho : volumeTo ⟨u, v, q⟩ o < 0)
    (hflat : volumeTo ⟨u, v, q⟩ v' = 0) (hseen : 0 < volumeTo ⟨u, v, w⟩ q)
    (hbehind : volumeTo ⟨u, v, w⟩ v' ≤ 0) : 0 ≤ volumeTo ⟨u, v, v'⟩ o := by
  have hproduct := volumeTo_mul u v w v' q o
  rw [hflat, mul_zero, zero_add] at hproduct
  have hnonneg := mul_nonneg_of_nonpos_of_nonpos hbehind ho.le
  rw [hproduct] at hnonneg
  exact nonneg_of_mul_nonneg_right hnonneg hseen

/-- If two triangles from one corner to a point have each other's edge behind them, and so have two
    triangles at these edges that the point is in front of, then the edges lead in one direction. -/
theorem sub_mul_eq_of_horizon (ho : volumeTo ⟨u, v, q⟩ o < 0) (ho' : volumeTo ⟨u, v', q⟩ o < 0)
    (hv : volumeTo ⟨u, v', q⟩ v ≤ 0) (hv' : volumeTo ⟨u, v, q⟩ v' ≤ 0)
    (hseen : 0 < volumeTo ⟨u, v, w⟩ q) (hseen' : 0 < volumeTo ⟨u, v', w'⟩ q)
    (hw : volumeTo ⟨u, v, w⟩ v' ≤ 0) (hw' : volumeTo ⟨u, v', w'⟩ v ≤ 0) :
    (v' - u) * volumeTo ⟨u, v, q⟩ o = (v - u) * volumeTo ⟨u, v', q⟩ o := by
  have hopposite : volumeTo ⟨u, v', q⟩ v = -volumeTo ⟨u, v, q⟩ v' := by
    simp only [volumeTo_eq]
    ring
  -- Both edges lie in one plane with the point, and neither leans toward it more than the other.
  have hflat : volumeTo ⟨u, v, q⟩ v' = 0 := by linarith
  have hflat' : volumeTo ⟨u, v', q⟩ v = 0 := by linarith
  have hlean := volumeTo_nonneg_of_horizon ho hflat hseen hw
  have hlean' := volumeTo_nonneg_of_horizon ho' hflat' hseen' hw'
  have hsame : volumeTo ⟨u, v, v'⟩ o = 0 := by
    have hturned : volumeTo ⟨u, v', v⟩ o = -volumeTo ⟨u, v, v'⟩ o := volumeTo_flip ⟨u, v, v'⟩ o
    linarith
  simp only [volumeTo_eq] at hflat hsame ⊢
  simp only [Vec3.sub_eq, Vec3.mul_eq, Vec3.mk.injEq]
  refine ⟨?_, ?_, ?_⟩
  · linear_combination (o.x - u.x) * hflat + (q.x - u.x) * hsame
  · linear_combination (o.y - u.y) * hflat + (q.y - u.y) * hsame
  · linear_combination (o.z - u.z) * hflat + (q.z - u.z) * hsame

/-! ## Heights -/

/-- The height of a point above a triangle is the volume they span by the area of the triangle. -/
theorem height_eq (t : Triangle (Vec3 ℝ)) (p : Vec3 ℝ) :
    t.height p = t.volumeTo p / t.doubleArea := by
  rw [height, Vec3.normalizeOrZero_eq, doubleArea, volumeTo, Vec3.volume]
  simp only [Vec3.dot_eq, Vec3.mul_eq, Vec3.sub_eq]
  ring

/-- A triangle without area spans no volume. -/
theorem volumeTo_eq_zero (h : t.doubleArea = 0) (p : Vec3 ℝ) : t.volumeTo p = 0 := by
  have hsq := Vec3.length_mul_length ((t.b - t.a).cross (t.c - t.a))
  rw [← doubleArea, h, zero_mul, Vec3.lengthSq_eq] at hsq
  change Vec3.dot (p - t.a) ((t.b - t.a).cross (t.c - t.a)) = 0
  generalize (t.b - t.a).cross (t.c - t.a) = n at hsq
  have hx : n.x = 0 := by nlinarith only [hsq, mul_self_nonneg n.x, sq_nonneg n.y, sq_nonneg n.z]
  have hy : n.y = 0 := by nlinarith only [hsq, sq_nonneg n.x, sq_nonneg n.y, sq_nonneg n.z]
  have hz : n.z = 0 := by nlinarith only [hsq, sq_nonneg n.x, sq_nonneg n.y, sq_nonneg n.z]
  rw [Vec3.dot_eq, hx, hy, hz]
  ring

/-- A point is above a triangle if the two span a positive volume. -/
theorem height_pos_iff : 0 < t.height p ↔ 0 < t.volumeTo p := by
  rw [height_eq]
  rcases (Vec3.length_nonneg ((t.b - t.a).cross (t.c - t.a))).eq_or_lt with hzero | hpos
  · have hflat : t.doubleArea = 0 := hzero.symm
    rw [volumeTo_eq_zero hflat, zero_div]
  · exact div_pos_iff_of_pos_right hpos

/-- A triangle that is turned around has the same area. -/
theorem doubleArea_flip (t : Triangle (Vec3 ℝ)) : t.flip.doubleArea = t.doubleArea := by
  refine congrArg Real.sqrt ?_
  simp only [flip, Vec3.dot_eq, Vec3.cross, Vec3.sub_eq]
  ring

/-- What is above a triangle is below it, when it is turned around. -/
theorem height_flip (t : Triangle (Vec3 ℝ)) (p : Vec3 ℝ) : t.flip.height p = -t.height p := by
  rw [height_eq, height_eq, volumeTo_flip, doubleArea_flip, neg_div]

/-- The heights of two points do not differ by more than their distance. -/
theorem height_le_add_distance (t : Triangle (Vec3 ℝ)) (p q : Vec3 ℝ) :
    t.height p ≤ t.height q + q.distance p := by
  have habs := Vec3.abs_dot_le_length
    (Vec3.lengthSq_normalizeOrZero_le ((t.b - t.a).cross (t.c - t.a))) (q - p)
  rw [Vec3.dot_sub] at habs
  have hle := (abs_le.1 habs).1
  rw [height, height, Vec3.distance]
  linarith

/-! ## Points of a plane -/

variable {a b : Vec3 ℝ}

/-- If any two of some points are in a plane with two others, the points are in one plane. -/
theorem volumeTo_eq_zero_of_line (hne : (b - a).lengthSq ≠ 0) {P : Vec3 ℝ → Prop}
    (h : ∀ p q, P p → P q → volumeTo ⟨a, b, p⟩ q = 0) {t : Triangle (Vec3 ℝ)} (ht : t.Over P)
    {p : Vec3 ℝ} (hp : P p) : t.volumeTo p = 0 := by
  obtain ⟨ha, hb, hc⟩ := ht
  by_contra hvolume
  refine hne ?_
  have h₁ := h _ _ hb hc
  have h₂ := h _ _ hb ha
  have h₃ := h _ _ ha hc
  have h₄ := h _ _ hb hp
  have h₅ := h _ _ ha hp
  have h₆ := h _ _ hc hp
  have hzero (r : ℝ) (hr : t.volumeTo p * r = 0) : r = 0 :=
    (mul_eq_zero.1 hr).resolve_left hvolume
  simp only [volumeTo_eq] at h₁ h₂ h₃ h₄ h₅ h₆ hzero
  have hx := hzero (b.x - a.x) (by
    linear_combination (p.x - t.a.x) * (h₁ - h₂ - h₃) + (t.b.x - t.a.x) * (h₆ + h₃ - h₅) +
      (t.c.x - t.a.x) * (h₅ + h₂ - h₄))
  have hy := hzero (b.y - a.y) (by
    linear_combination (p.y - t.a.y) * (h₁ - h₂ - h₃) + (t.b.y - t.a.y) * (h₆ + h₃ - h₅) +
      (t.c.y - t.a.y) * (h₅ + h₂ - h₄))
  have hz := hzero (b.z - a.z) (by
    linear_combination (p.z - t.a.z) * (h₁ - h₂ - h₃) + (t.b.z - t.a.z) * (h₆ + h₃ - h₅) +
      (t.c.z - t.a.z) * (h₅ + h₂ - h₄))
  simp only [Vec3.lengthSq_eq, Vec3.sub_eq, hx, hy, hz, mul_zero, add_zero]

/-- If some points are in the plane of a triangle, they are in one plane. -/
theorem volumeTo_eq_zero_of_plane {u : Triangle (Vec3 ℝ)} (hne : u.doubleArea ≠ 0)
    {P : Vec3 ℝ → Prop} (h : ∀ p, P p → u.volumeTo p = 0) {t : Triangle (Vec3 ℝ)} (ht : t.Over P)
    {p : Vec3 ℝ} (hp : P p) : t.volumeTo p = 0 := by
  obtain ⟨ha, hb, hc⟩ := ht
  by_contra hvolume
  refine hne ?_
  have h₁ := h _ ha
  have h₂ := h _ hb
  have h₃ := h _ hc
  have h₄ := h _ hp
  have hzero (r : ℝ) (hr : t.volumeTo p * r = 0) : r = 0 :=
    (mul_eq_zero.1 hr).resolve_left hvolume
  rw [volumeTo, Vec3.volume] at h₁ h₂ h₃ h₄
  rw [doubleArea, Vec3.length]
  generalize (u.b - u.a).cross (u.c - u.a) = n at *
  simp only [volumeTo_eq, Vec3.dot_eq, Vec3.sub_eq] at h₁ h₂ h₃ h₄ hzero
  have hx := hzero n.x (by
    linear_combination
      ((t.b.y - t.a.y) * (t.c.z - t.a.z) - (t.c.y - t.a.y) * (t.b.z - t.a.z)) * (h₄ - h₁) +
      ((t.c.y - t.a.y) * (p.z - t.a.z) - (p.y - t.a.y) * (t.c.z - t.a.z)) * (h₂ - h₁) +
      ((p.y - t.a.y) * (t.b.z - t.a.z) - (t.b.y - t.a.y) * (p.z - t.a.z)) * (h₃ - h₁))
  have hy := hzero n.y (by
    linear_combination
      ((t.b.z - t.a.z) * (t.c.x - t.a.x) - (t.c.z - t.a.z) * (t.b.x - t.a.x)) * (h₄ - h₁) +
      ((t.c.z - t.a.z) * (p.x - t.a.x) - (p.z - t.a.z) * (t.c.x - t.a.x)) * (h₂ - h₁) +
      ((p.z - t.a.z) * (t.b.x - t.a.x) - (t.b.z - t.a.z) * (p.x - t.a.x)) * (h₃ - h₁))
  have hz := hzero n.z (by
    linear_combination
      ((t.b.x - t.a.x) * (t.c.y - t.a.y) - (t.c.x - t.a.x) * (t.b.y - t.a.y)) * (h₄ - h₁) +
      ((t.c.x - t.a.x) * (p.y - t.a.y) - (p.x - t.a.x) * (t.c.y - t.a.y)) * (h₂ - h₁) +
      ((p.x - t.a.x) * (t.b.y - t.a.y) - (t.b.x - t.a.x) * (p.y - t.a.y)) * (h₃ - h₁))
  simp only [Vec3.dot_eq, hx, hy, hz, mul_zero, add_zero]
  exact Real.sqrt_zero

end Triangle

namespace Hull

/-- No point lies off the plane of three others by the tolerance or less. -/
def Resolved {α : Type} [Scalar α] (cloud : Cloud α) : Prop :=
  ∀ (t : Triangle cloud.Place) (i : cloud.Place),
    0.0 < (t.map cloud.point).height (cloud.point i) →
      tolerance < (t.map cloud.point).height (cloud.point i)

namespace Facet

variable [Reading] {cloud : Cloud ℝ} {interior : Vec3 ℝ} {t : Triangle cloud.Place}

/-- A facet is turned around if the inside lies in front of it. -/
theorem corners_make (interior : Vec3 ℝ) (t : Triangle cloud.Place) : (make interior t).corners =
    if 0 < (t.map cloud.point).volumeTo interior then t.flip else t := by
  rw [make, Vec3.dot_sub, Scalar.zero_eq, apply_ite Facet.corners]
  exact if_congr Triangle.height_pos_iff rfl rfl

/-- A facet measures the height above its corners. -/
theorem height_make (interior : Vec3 ℝ) (t : Triangle cloud.Place) (i : cloud.Place) :
    (make interior t).height i =
      ((make interior t).corners.map cloud.point).height (cloud.point i) := by
  rw [make]
  split
  · rw [Triangle.map_flip, Triangle.height_flip]
    simp only [height, Triangle.height, Vec3.dot_eq, Vec3.neg_eq, Triangle.map]
    ring
  · rfl

/-- In a cloud without points close to a plane of others, a facet sees the points in front of it. -/
theorem sees_make_iff (h : Resolved cloud) (i : cloud.Place) : (make interior t).sees i = true ↔
    0 < ((make interior t).corners.map cloud.point).volumeTo (cloud.point i) := by
  rw [sees, decide_eq_true_iff, height_make, ← Triangle.height_pos_iff]
  refine ⟨tolerance_pos.trans, fun hpos => h _ i ?_⟩
  rw [Scalar.zero_eq]
  exact hpos

end Facet

end Hull

end Solids
