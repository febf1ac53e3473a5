import Solids.Proofs.Exact.Point
import Solids.Proofs.Mesh.Division

/-!
# Dividing space exactly

Over exact numbers a triangle lies on the plane through its corners, and the points where it is cut
lie there, too. So all that becomes of triangles lies on its plane (`Mesh.flat_exact`), and space
can be divided by them.
-/

namespace Solids

variable [Reading]

namespace Plane

/-- A point between two others is as far from a plane as they are, in shares. -/
theorem distance_lerp (plane : Plane ℝ) (v w : Vec3 ℝ) (s : ℝ) :
    plane.distance (v.lerp w s) = plane.distance v + (plane.distance w - plane.distance v) * s := by
  simp only [distance, Vec3.dot_eq, Vec3.lerp_eq]
  ring

/-- Behind a plane is in front of the plane facing the other way. -/
theorem distance_flip (plane : Plane ℝ) (v : Vec3 ℝ) :
    plane.flip.distance v = -plane.distance v := by
  simp only [distance, flip, Vec3.dot_eq, Vec3.neg_eq]
  ring

/-- A point without a distance lies on the plane. -/
theorem side_eq_on {plane : Plane ℝ} {v : Vec3 ℝ} (h : plane.distance v = 0) :
    plane.side v = .on := by
  rw [side, h, if_neg (neg_neg_of_pos planeTolerance_pos).not_gt, if_neg planeTolerance_pos.not_gt]

/-- The plane through three points goes through them. -/
theorem distance_through? {a b c : Vec3 ℝ} {plane : Plane ℝ} (h : through? a b c = some plane) :
    ∀ v ∈ [a, b, c], plane.distance v = 0 := by
  rw [through?] at h
  dsimp only at h
  split at h
  · cases h
  · cases h
    simp only [List.forall_mem_cons, distance, Vec3.dot_eq, Vec3.div_eq, Vec3.cross, Vec3.sub_eq]
    exact ⟨by ring, by ring, by ring, fun _ hv => absurd hv List.not_mem_nil⟩

end Plane

/-- A polygon whose vertices are on its plane keeps them there. -/
theorem Polygon.kept_distance_eq_zero :
    Kept fun p : Polygon ℝ => ∀ v ∈ p.vertices, p.plane.distance v = 0 := by
  refine kept_of_crossing (P := fun own v => own.distance v = 0) (fun own plane v w hv hw => ?_)
    fun own v hv => ?_
  · rw [Plane.crossing, Plane.distance_lerp, hv, hw, sub_zero, zero_mul, add_zero]
  · rw [Plane.distance_flip, hv, neg_zero]

/-- Exactly, all that becomes of the triangles of two meshes lies on its plane. -/
theorem Mesh.flat_exact (m n : Mesh ℝ) : m.Flat n := by
  have hface {m : Mesh ℝ} (p : Polygon ℝ) (hp : m.Face p) :
      ∀ v ∈ p.vertices, p.plane.distance v = 0 := by
    obtain ⟨_, _, c, _, hvertices, hplane⟩ := hp
    rw [hvertices]
    exact Plane.distance_through? hplane
  exact flat_of_inherited Polygon.kept_distance_eq_zero.inherited
    (fun p hp => Polygon.liesOn_of_side fun v hv => Plane.side_eq_on (hp v hv)) hface hface

end Solids
