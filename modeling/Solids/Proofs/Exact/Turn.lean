import Mathlib.Analysis.SpecialFunctions.Trigonometric.Basic
import Solids.Proofs.Exact.Point
import Solids.Sweep.Extrude

/-!
# Turns over exact numbers

The rotations that sweeps turn profiles by are of length one, and so keep lengths
(`Rotation.lengthSq_apply`): the turn around a unit vector, the shortest turn between two of them
(`Rotation.isUnit_arc`), and the products of such turns. The vectors that they are made from are of
length one: the normal of a profile (`Path.isUnit_faceNormal`) and the directions along a rail
(`Sweep.isUnit_of_mem_tangents`). So all turns of a profile along a rail are, whatever the alignment
(`Sweep.isUnit_of_mem_orientations`).

The turn around the vertical axis keeps the height of a point and its distance from the axis.
-/

namespace Solids

variable [Reading]

/-! ## Unit vectors -/

namespace Vec3

/-- The vector is of length one. -/
def IsUnit (v : Vec3 ℝ) : Prop := v.lengthSq = 1

/-- A vector that has a length is scaled to length one. -/
theorem isUnit_normalize {v : Vec3 ℝ} (h : 0 < v.length) : v.normalize.IsUnit := by
  rw [IsUnit, normalize, lengthSq_mul, ← length_mul_length, Scalar.one_eq]
  field_simp

/-- The zero vector is equal to itself. -/
theorem zero_beq_zero : ((zero : Vec3 ℝ) == zero) = true := by
  change ((0.0 : ℝ) == 0.0 && ((0.0 : ℝ) == 0.0 && (0.0 : ℝ) == 0.0)) = true
  simp

/-- A vector scaled to length one is of length one, or zero. -/
theorem normalizeOrZero_eq_or_isUnit (v : Vec3 ℝ) :
    v.normalizeOrZero = .zero ∨ v.normalizeOrZero.IsUnit := by
  rw [normalizeOrZero]
  split
  · next h =>
    have hpos : 0 < v.length := by
      have hinv := h.2
      norm_num at hinv
      exact hinv
    exact .inr (isUnit_normalize hpos)
  · exact .inl rfl

/-- The vector made at right angles to a unit vector is one. -/
theorem IsUnit.orthonormal {n : Vec3 ℝ} (h : n.IsUnit) : n.orthonormal.IsUnit := by
  obtain ⟨x, y, z⟩ := n
  -- The sign of `z` keeps what is divided by away from zero.
  obtain ⟨s, hs, hsq, hsum⟩ : ∃ s : ℝ, Scalar.copySign 1.0 z = s ∧ s * s = 1 ∧ s + z ≠ 0 := by
    rw [Scalar.copySign_one]
    split
    · next hz => exact ⟨-1, rfl, by norm_num, by linarith⟩
    · next hz => exact ⟨1, rfl, by norm_num, by linarith⟩
  have ha : -1.0 / (s + z) * (s + z) = -1 := by
    rw [div_mul_cancel₀ _ hsum]
    norm_num
  rw [IsUnit, lengthSq_eq] at h ⊢
  rw [Vec3.orthonormal, hs]
  generalize -1.0 / (s + z) = a at ha
  -- The sum of squares is one by the length of `n`, the square of the sign and the quotient alone.
  change x * y * a * (x * y * a) + (s + y * y * a) * (s + y * y * a) + -y * -y = 1
  change x * x + y * y + z * z = 1 at h
  linear_combination
    (y * y * a * a) * h + (1 - y * y * a * a) * hsq + (y * y * a * (s - z) + y * y) * ha

end Vec3

/-! ## Rotations -/

namespace Rotation

/-- The square of the quaternion's length. -/
noncomputable def lengthSq (q : Rotation ℝ) : ℝ := q.x * q.x + q.y * q.y + q.z * q.z + q.w * q.w

/-- The rotation is of length one as a quaternion. -/
def IsUnit (q : Rotation ℝ) : Prop := q.lengthSq = 1

/-- The product of quaternions has the product of their lengths. -/
theorem lengthSq_mul (q r : Rotation ℝ) : (q * r).lengthSq = q.lengthSq * r.lengthSq := by
  obtain ⟨qx, qy, qz, qw⟩ := q
  obtain ⟨rx, ry, rz, rw⟩ := r
  change lengthSq ⟨_, _, _, _⟩ = _
  simp only [lengthSq]
  ring

/-- A quaternion scales what it turns by the square of its own length. -/
theorem lengthSq_apply (q : Rotation ℝ) (v : Vec3 ℝ) :
    (q.apply v).lengthSq = q.lengthSq * q.lengthSq * v.lengthSq := by
  obtain ⟨x, y, z, w⟩ := q
  obtain ⟨a, b, c⟩ := v
  simp only [apply, axis, lengthSq, Vec3.lengthSq_eq, Vec3.dot_eq, Vec3.cross, Vec3.add_eq,
    Vec3.mul_eq, Scalar.two_eq]
  ring

variable {q r : Rotation ℝ}

/-- A rotation of length one keeps lengths. -/
theorem IsUnit.lengthSq_apply_eq (h : q.IsUnit) (v : Vec3 ℝ) :
    (q.apply v).lengthSq = v.lengthSq := by
  rw [lengthSq_apply, h, one_mul, one_mul]

/-- The product of rotations of length one is of length one. -/
theorem IsUnit.mul (hq : q.IsUnit) (hr : r.IsUnit) : (q * r).IsUnit := by
  rw [IsUnit, lengthSq_mul, hq, hr, one_mul]

/-- The rotation that turns nothing is of length one. -/
theorem isUnit_identity : (identity : Rotation ℝ).IsUnit := by
  norm_num [IsUnit, lengthSq, identity]

/-- The turn around a unit vector is of length one. -/
theorem isUnit_aroundAxis {axis : Vec3 ℝ} (h : axis.IsUnit) (angle : ℝ) :
    (aroundAxis axis angle).IsUnit := by
  have hsq := Real.sin_sq_add_cos_sq (angle * 0.5)
  rw [Vec3.IsUnit, Vec3.lengthSq_eq] at h
  rw [IsUnit, lengthSq, aroundAxis]
  change axis.x * Real.sin _ * (axis.x * Real.sin _) + axis.y * Real.sin _ * (axis.y * Real.sin _) +
    axis.z * Real.sin _ * (axis.z * Real.sin _) + Real.cos _ * Real.cos _ = 1
  linear_combination Real.sin (angle * 0.5) ^ 2 * h + hsq

/-- The shortest turn from a unit vector to another vector is of length one. -/
theorem isUnit_arc {source : Vec3 ℝ} (h : source.IsUnit) (target : Vec3 ℝ) :
    (arc source target).IsUnit := by
  rw [arc]
  dsimp only
  split
  · exact isUnit_identity
  · split
    · exact isUnit_aroundAxis h.orthonormal _
    · next hback =>
      -- The vectors are not opposite, so the quaternion has a length to be divided by.
      generalize source.cross target = c
      generalize source.dot target = d at hback
      have hw : 0 < 1.0 + d := by
        norm_num [parallelCosine] at hback ⊢
        linarith
      have hpos : 0 < c.x * c.x + c.y * c.y + c.z * c.z + (1.0 + d) * (1.0 + d) :=
        add_pos_of_nonneg_of_pos c.lengthSq_nonneg (mul_pos hw hw)
      have hroot := Real.mul_self_sqrt hpos.le
      have hne := (Real.sqrt_pos.2 hpos).ne'
      rw [IsUnit, lengthSq]
      change c.x * (1.0 / √_) * (c.x * (1.0 / √_)) + c.y * (1.0 / √_) * (c.y * (1.0 / √_)) +
        c.z * (1.0 / √_) * (c.z * (1.0 / √_)) +
        (1.0 + d) * (1.0 / √_) * ((1.0 + d) * (1.0 / √_)) = 1
      generalize √(c.x * c.x + c.y * c.y + c.z * c.z + (1.0 + d) * (1.0 + d)) = k at hroot hne
      rw [Scalar.one_eq] at hroot ⊢
      field_simp
      linear_combination -hroot

/-- A turn around the vertical axis keeps the height of a point and its distance from the axis. -/
theorem apply_aroundY (angle : ℝ) (p : Vec3 ℝ) : ∃ x z,
    (aroundY angle).apply p = ⟨x, p.y, z⟩ ∧ x * x + z * z = p.x * p.x + p.z * p.z := by
  have hsq := Real.sin_sq_add_cos_sq (angle * 0.5)
  have haround : aroundY angle = ⟨0, Real.sin (angle * 0.5), 0, Real.cos (angle * 0.5)⟩ := by
    rw [← Scalar.zero_eq]
    rfl
  rw [haround]
  generalize Real.sin (angle * 0.5) = s at hsq
  generalize Real.cos (angle * 0.5) = c at hsq
  refine ⟨p.x * (c * c - s * s) + p.z * (2 * c * s), p.z * (c * c - s * s) - p.x * (2 * c * s),
    ?_, ?_⟩
  · simp only [apply, axis, Vec3.dot_eq, Vec3.cross, Vec3.add_eq, Vec3.mul_eq, Scalar.two_eq,
      Vec3.mk.injEq]
    refine ⟨by ring, ?_, by ring⟩
    linear_combination p.y * hsq
  · linear_combination (p.x * p.x + p.z * p.z) * (s ^ 2 + c ^ 2 + 1) * hsq

end Rotation

/-! ## Profiles and rails -/

namespace Path

/-- The normal of a profile is of length one. -/
theorem isUnit_faceNormal (path : Path ℝ) : path.faceNormal.IsUnit := by
  rw [faceNormal]
  split
  · norm_num [Vec3.IsUnit, Vec3.lengthSq_eq, Vec3.unitZ]
  · next h =>
    refine Vec3.isUnit_normalize ?_
    have htol : tolerance ≤ |(windingNormal path.flattened).length| :=
      not_lt.1 fun hlt => h (decide_eq_true hlt)
    rw [abs_of_nonneg (Vec3.length_nonneg _)] at htol
    exact tolerance_pos.trans_le htol

end Path

namespace Sweep

/-- The directions along a rail are of length one, if the last good one before it is. -/
theorem isUnit_of_mem_tangentsFrom {last : Vec3 ℝ} (h : last.IsUnit)
    (xs : List (Option (Vec3 ℝ) × Vec3 ℝ × Option (Vec3 ℝ))) :
    ∀ t ∈ tangentsFrom last xs, t.IsUnit := by
  induction xs generalizing last with
  | nil => exact fun _ ht => absurd ht List.not_mem_nil
  | cons x xs ih =>
    obtain ⟨before, p, after⟩ := x
    have hgood : ∀ v : Vec3 ℝ, (if v.normalizeOrZero == .zero then last
        else v.normalizeOrZero).IsUnit := by
      intro v
      split
      · exact h
      · next hne =>
        refine v.normalizeOrZero_eq_or_isUnit.resolve_left fun hzero => hne ?_
        rw [hzero]
        exact Vec3.zero_beq_zero
    exact List.forall_mem_cons.2 ⟨hgood _, ih (hgood _)⟩

/-- The directions along a rail are of length one. -/
theorem isUnit_of_mem_tangents {fallback : Vec3 ℝ} (h : fallback.IsUnit) (rail : List (Vec3 ℝ))
    (closed : Bool) : ∀ t ∈ tangents rail closed fallback, t.IsUnit :=
  isUnit_of_mem_tangentsFrom h _

/-- The turns that carry a profile along unit directions are of length one. -/
theorem isUnit_of_mem_carried {turn : Rotation ℝ} (hturn : turn.IsUnit) {previous : Vec3 ℝ}
    (hprevious : previous.IsUnit) {directions : List (Vec3 ℝ)} (h : ∀ t ∈ directions, t.IsUnit) :
    ∀ q ∈ carried turn previous directions, q.IsUnit := by
  -- Each turn goes on from the one before, so both the turn and its direction change on the way.
  induction directions generalizing turn previous with
  | nil => exact fun _ hq => absurd hq List.not_mem_nil
  | cons t rest ih =>
    obtain ⟨ht, hrest⟩ := List.forall_mem_cons.1 h
    have hnext := (Rotation.isUnit_arc hprevious t).mul hturn
    exact List.forall_mem_cons.2 ⟨hnext, ih hnext ht hrest⟩

/-- The turns of a profile along a rail are of length one. -/
theorem isUnit_of_mem_orientations {normal : Vec3 ℝ} (hnormal : normal.IsUnit)
    {directions : List (Vec3 ℝ)} (h : ∀ t ∈ directions, t.IsUnit) (align : Alignment) :
    ∀ q ∈ orientations normal directions align, q.IsUnit := by
  cases align with
  | follow => exact isUnit_of_mem_carried Rotation.isUnit_identity hnormal h
  | axis => exact List.forall_mem_map.2 fun _ _ => Rotation.isUnit_identity
  | tangent => exact List.forall_mem_map.2 fun t _ => Rotation.isUnit_arc hnormal t

end Sweep

end Solids
