import Mathlib.Analysis.SpecialFunctions.Trigonometric.Basic
import Solids.Matrix
import Solids.Proofs.Exact.Number

/-!
# Points over exact numbers

Points are compared in all components at once, and have lengths. A set of points is convex
(`Vec3.Convex`) if it holds the points between any two of its own, as boxes and balls do
(`Vec3.convex_ball`). What the library makes of points by walking part of the way from one to
another stays in every convex set that holds them.
-/

namespace Solids

variable [Reading]

namespace Vec3

variable {a b c : Vec3 ℝ}

/-! ## Components -/

/-- A sum in components. -/
theorem add_eq (a b : Vec3 ℝ) : a + b = ⟨a.x + b.x, a.y + b.y, a.z + b.z⟩ := rfl

/-- A difference in components. -/
theorem sub_eq (a b : Vec3 ℝ) : a - b = ⟨a.x - b.x, a.y - b.y, a.z - b.z⟩ := rfl

/-- An opposite vector in components. -/
theorem neg_eq (a : Vec3 ℝ) : -a = ⟨-a.x, -a.y, -a.z⟩ := rfl

/-- A multiple in components. -/
theorem mul_eq (a : Vec3 ℝ) (s : ℝ) : a * s = ⟨a.x * s, a.y * s, a.z * s⟩ := rfl

/-- A quotient in components. -/
theorem div_eq (a : Vec3 ℝ) (s : ℝ) : a / s = ⟨a.x / s, a.y / s, a.z / s⟩ := rfl

/-- The point a share of the way between two others in components. -/
theorem lerp_eq (a b : Vec3 ℝ) (s : ℝ) :
    a.lerp b s = ⟨a.x + (b.x - a.x) * s, a.y + (b.y - a.y) * s, a.z + (b.z - a.z) * s⟩ := rfl

/-- A product of vectors in components. -/
theorem dot_eq (a b : Vec3 ℝ) : a.dot b = a.x * b.x + a.y * b.y + a.z * b.z := rfl

/-- A product with a difference is a difference of products. -/
theorem dot_sub (n a b : Vec3 ℝ) : n.dot (a - b) = n.dot a - n.dot b := by
  simp only [dot_eq, sub_eq]
  ring

/-- The way to a point begins where it starts. -/
theorem lerp_zero (a b : Vec3 ℝ) : a.lerp b 0 = a := by
  simp only [lerp_eq, mul_zero, add_zero]

/-- The way to a point ends there. -/
theorem lerp_one (a b : Vec3 ℝ) : a.lerp b 1 = b := by
  simp only [lerp_eq, mul_one, add_sub_cancel]

/-- The way from a point to itself stays there. -/
theorem lerp_self (a : Vec3 ℝ) (s : ℝ) : a.lerp a s = a := by
  simp only [lerp_eq, sub_self, zero_mul, add_zero]

/-! ## Order -/

/-- Points are compared in all components. -/
instance : Preorder (Vec3 ℝ) where
  le a b := a.x ≤ b.x ∧ a.y ≤ b.y ∧ a.z ≤ b.z
  le_refl _ := ⟨le_rfl, le_rfl, le_rfl⟩
  le_trans _ _ _ h h' := ⟨h.1.trans h'.1, h.2.1.trans h'.2.1, h.2.2.trans h'.2.2⟩

omit [Reading] in
/-- One point is no greater than another if no component is. -/
theorem le_iff : a ≤ b ↔ a.x ≤ b.x ∧ a.y ≤ b.y ∧ a.z ≤ b.z := Iff.rfl

/-- A point below the lesser of each component is below both points. -/
theorem le_lesser_iff : c ≤ a.lesser b ↔ c ≤ a ∧ c ≤ b := by
  simp only [le_iff, lesser, Scalar.lesser_eq_min, le_min_iff]
  tauto

/-- A point above the greater of each component is above both points. -/
theorem greater_le_iff : a.greater b ≤ c ↔ a ≤ c ∧ b ≤ c := by
  simp only [le_iff, greater, Scalar.greater_eq_max, max_le_iff]
  tauto

/-- The lesser of each component is below the first point. -/
theorem lesser_le_left (a b : Vec3 ℝ) : a.lesser b ≤ a := (le_lesser_iff.1 le_rfl).1

/-- The lesser of each component is below the second point. -/
theorem lesser_le_right (a b : Vec3 ℝ) : a.lesser b ≤ b := (le_lesser_iff.1 le_rfl).2

/-- The greater of each component is above the first point. -/
theorem le_greater_left (a b : Vec3 ℝ) : a ≤ a.greater b := (greater_le_iff.1 le_rfl).1

/-- The greater of each component is above the second point. -/
theorem le_greater_right (a b : Vec3 ℝ) : b ≤ a.greater b := (greater_le_iff.1 le_rfl).2

/-! ## Lengths -/

/-- The square of a length in components. -/
theorem lengthSq_eq (v : Vec3 ℝ) : v.lengthSq = v.x * v.x + v.y * v.y + v.z * v.z := rfl

/-- The square of a length is not negative. -/
theorem lengthSq_nonneg (v : Vec3 ℝ) : 0 ≤ v.lengthSq :=
  add_nonneg (add_nonneg (mul_self_nonneg _) (mul_self_nonneg _)) (mul_self_nonneg _)

/-- A length is not negative. -/
theorem length_nonneg (v : Vec3 ℝ) : 0 ≤ v.length := Real.sqrt_nonneg _

/-- A length is the root of its square. -/
theorem length_mul_length (v : Vec3 ℝ) : v.length * v.length = v.lengthSq :=
  Real.mul_self_sqrt v.lengthSq_nonneg

/-- Scaling a vector scales the square of its length twice. -/
theorem lengthSq_mul (v : Vec3 ℝ) (s : ℝ) : (v * s).lengthSq = v.lengthSq * (s * s) := by
  change v.x * s * (v.x * s) + v.y * s * (v.y * s) + v.z * s * (v.z * s) = _
  rw [lengthSq_eq]
  ring

/-- The way from a point to itself has no length. -/
theorem lengthSq_sub_self (p : Vec3 ℝ) : (p - p).lengthSq = 0 := by
  simp only [lengthSq_eq, sub_eq, sub_self, mul_zero, add_zero]

/-- Points with no way between them are one point. -/
theorem eq_of_lengthSq_sub_eq_zero (h : (a - b).lengthSq = 0) : a = b := by
  obtain ⟨ax, ay, az⟩ := a
  obtain ⟨bx, b_y, bz⟩ := b
  simp only [lengthSq_eq, sub_eq] at h
  have hx := mul_self_nonneg (ax - bx)
  have hy := mul_self_nonneg (ay - b_y)
  have hz := mul_self_nonneg (az - bz)
  have hx' : (ax - bx) * (ax - bx) = 0 := by linarith
  have hy' : (ay - b_y) * (ay - b_y) = 0 := by linarith
  have hz' : (az - bz) * (az - bz) = 0 := by linarith
  rw [sub_eq_zero.1 (mul_self_eq_zero.1 hx'), sub_eq_zero.1 (mul_self_eq_zero.1 hy'),
    sub_eq_zero.1 (mul_self_eq_zero.1 hz')]

/-- A distance is not negative. -/
theorem distance_nonneg (a b : Vec3 ℝ) : 0 ≤ a.distance b := length_nonneg _

/-- A point has no distance from itself. -/
theorem distance_self (p : Vec3 ℝ) : p.distance p = 0 :=
  (congrArg Real.sqrt (lengthSq_sub_self p)).trans Real.sqrt_zero

/-- A point is closer to itself than the tolerance. -/
theorem distance_self_lt (p : Vec3 ℝ) : p.distance p < tolerance :=
  p.distance_self.trans_lt tolerance_pos

/-- Points without a distance are one point. -/
theorem eq_of_distance_eq_zero (h : a.distance b = 0) : a = b :=
  eq_of_lengthSq_sub_eq_zero ((Real.sqrt_eq_zero (lengthSq_nonneg _)).1 h)

/-! ## Volumes -/

/-- The volume of the box that three vectors span, negative if they are turned the other way. -/
noncomputable def volume (a b c : Vec3 ℝ) : ℝ := a.dot (b.cross c)

/-- The volume is the same from whichever of the vectors it is taken. -/
theorem volume_rotate (a b c : Vec3 ℝ) : volume b c a = volume a b c := by
  simp only [volume, dot_eq, cross]
  ring

/-! ## Convex sets -/

/-- The set holds the points between any two of its own. -/
def Convex (P : Vec3 ℝ → Prop) : Prop :=
  ∀ a b s, P a → P b → 0 ≤ s → s ≤ 1 → P (a.lerp b s)

/-- A convex set holds the middle of two of its points. -/
theorem Convex.lerp_half {P : Vec3 ℝ → Prop} (hP : Convex P) (ha : P a) (hb : P b) :
    P (a.lerp b 0.5) :=
  hP a b _ ha hb (by norm_num) (by norm_num)

omit [Reading] in
/-- A number between two others lies a share of the way from one to the other. -/
theorem exists_share {l h x : ℝ} (hl : l ≤ x) (hh : x ≤ h) :
    ∃ s, 0 ≤ s ∧ s ≤ 1 ∧ l + (h - l) * s = x := by
  rcases hl.eq_or_lt with rfl | hlt
  · exact ⟨0, le_rfl, zero_le_one, by ring⟩
  · have hpos : 0 < h - l := by linarith
    refine ⟨(x - l) / (h - l), ?_, ?_, ?_⟩
    · exact div_nonneg (by linarith) hpos.le
    · exact (div_le_one hpos).2 (by linarith)
    · field_simp
      ring

/-- The points of no more than a length are a convex set. -/
theorem convex_ball (r : ℝ) : Convex fun p => p.lengthSq ≤ r := by
  intro a b s ha hb hs hs'
  -- On the way the square of the length falls short of the mean of those at the ends.
  have hlerp : (a.lerp b s).lengthSq =
      (1 - s) * a.lengthSq + s * b.lengthSq - s * (1 - s) * (b - a).lengthSq := by
    simp only [lengthSq_eq, lerp_eq, sub_eq]
    ring
  have hs'' : 0 ≤ 1 - s := sub_nonneg.2 hs'
  have hgap := mul_nonneg (mul_nonneg hs hs'') (b - a).lengthSq_nonneg
  have hmean : (1 - s) * a.lengthSq + s * b.lengthSq ≤ (1 - s) * r + s * r :=
    add_le_add (mul_le_mul_of_nonneg_left ha hs'') (mul_le_mul_of_nonneg_left hb hs)
  linarith

/-- No component is greater than the length. -/
theorem abs_le_of_lengthSq_le {p : Vec3 ℝ} {r : ℝ} (hr : 0 ≤ r) (h : p.lengthSq ≤ r * r) :
    |p.x| ≤ r ∧ |p.y| ≤ r ∧ |p.z| ≤ r := by
  rw [lengthSq_eq] at h
  have hx := mul_self_nonneg p.x
  have hy := mul_self_nonneg p.y
  have hz := mul_self_nonneg p.z
  refine ⟨?_, ?_, ?_⟩ <;> refine abs_le_of_sq_le_sq ?_ hr <;> linarith

end Vec3

namespace Matrix

/-- The components of the image of a point. -/
theorem apply_eq (m : Matrix ℝ) (p : Vec3 ℝ) : m.apply p =
    ⟨m.origin.x + (m.axisZ.x * p.z + (m.axisY.x * p.y + m.axisX.x * p.x)),
     m.origin.y + (m.axisZ.y * p.z + (m.axisY.y * p.y + m.axisX.y * p.x)),
     m.origin.z + (m.axisZ.z * p.z + (m.axisY.z * p.y + m.axisX.z * p.x))⟩ := rfl

/-- A matrix takes the points between two others to the points between their images. -/
theorem apply_lerp (m : Matrix ℝ) (a b : Vec3 ℝ) (s : ℝ) :
    m.apply (a.lerp b s) = (m.apply a).lerp (m.apply b) s := by
  simp only [apply_eq, Vec3.lerp_eq, Vec3.mk.injEq]
  refine ⟨?_, ?_, ?_⟩ <;> ring

/-- The points that a matrix takes into a convex set are one. -/
theorem convex_apply (m : Matrix ℝ) {P : Vec3 ℝ → Prop} (hP : Vec3.Convex P) :
    Vec3.Convex fun p => P (m.apply p) := by
  intro a b s ha hb hs hs'
  rw [m.apply_lerp]
  exact hP _ _ s ha hb hs hs'

end Matrix

end Solids
