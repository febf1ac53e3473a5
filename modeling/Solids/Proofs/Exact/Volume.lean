import Mathlib.Analysis.SpecialFunctions.Trigonometric.Basic
import Solids.Proofs.Exact.Area
import Solids.Proofs.Exact.Decomposition
import Solids.Proofs.Exact.Estimate
import Solids.Proofs.Mesh.Reads
import Solids.Proofs.Mesh.WellFormed

/-!
# Volume of a moved mesh

The volume of a mesh is a sum of volumes between its triangles and the origin. An affine map takes
each of them to its multiple by the determinant, but not to one between the image and the origin:
what is left over is the volume between the image, the origin, and the point where the origin went.
It flows along the edges (`Matrix.lost`), so triangle by triangle it is what flows around
(`Matrix.Affine.sixfoldVolume_map_apply`), and nothing of it is left over of a surface without a
border (`Mesh.Watertight.around_eq_zero`). Where the map mirrors, the triangles are turned and the
sign of the determinant goes away with theirs.

* `Mesh.signedVolume_transform`: the volume of a closed mesh goes with the magnitude of the
  determinant, so what faced outward still does.
-/

namespace Solids

variable [Reading]

/-! ## Triangles -/

namespace Vec3

/-- The volume that three points span from another instead of the origin. -/
theorem volume_sub_sub_sub (o a b c : Vec3 ℝ) : volume (a - o) (b - o) (c - o) =
    volume a b c - (volume o a b + volume o b c + volume o c a) := by
  simp only [volume, dot_eq, cross, sub_eq]
  ring

end Vec3

namespace Matrix

variable {m : Matrix ℝ}

/-- As seen from where the origin went, an affine map multiplies volumes by its determinant. -/
theorem Affine.volume_apply_sub (h : m.Affine) (a b c : Vec3 ℝ) :
    Vec3.volume (m.apply a - m.origin.xyz) (m.apply b - m.origin.xyz) (m.apply c - m.origin.xyz) =
      m.determinant * Vec3.volume a b c := by
  rw [h.determinant_eq]
  simp only [Vec3.volume, Vec3.dot_eq, Vec3.cross, Vec3.sub_eq, apply_eq, Column.xyz,
    add_sub_cancel_left]
  ring

/-- The volume that the image of a step spans with the origin and the point where that went. -/
noncomputable def lost (m : Matrix ℝ) (p q : Vec3 ℝ) : ℝ :=
  Vec3.volume m.origin.xyz (m.apply p) (m.apply q)

/-- What is lost along a step is gained on the way back. -/
theorem alternating_lost (m : Matrix ℝ) : Alternating m.lost := fun p q => by
  simp only [lost, Vec3.volume, Vec3.dot_eq, Vec3.cross]
  ring

/-- The volume between the origin and the image of a triangle is the multiple of that between the
    origin and the triangle, and what is lost around it. -/
theorem Affine.sixfoldVolume_map_apply (h : m.Affine) (t : Triangle (Vec3 ℝ)) :
    (t.map m.apply).sixfoldVolume = m.determinant * t.sixfoldVolume + around m.lost [t] := by
  have hseen := Vec3.volume_sub_sub_sub m.origin.xyz (m.apply t.a) (m.apply t.b) (m.apply t.c)
  rw [h.volume_apply_sub] at hseen
  rw [around_singleton]
  exact (sub_eq_iff_eq_add.1 hseen.symm)

end Matrix

/-! ## Meshes -/

namespace Triangle

/-- A triangle that is turned around takes away the volume that it brought. -/
theorem sixfoldVolume_flip (t : Triangle (Vec3 ℝ)) : t.flip.sixfoldVolume = -t.sixfoldVolume := by
  simp only [sixfoldVolume, flip, Vec3.dot_eq, Vec3.cross]
  ring

end Triangle

namespace Mesh

variable {m : Mesh ℝ} {matrix : Matrix ℝ} {ts : List (Triangle UInt32)} {place : UInt32 → Vec3 ℝ}

/-- Six times the volume that triangles over indices enclose where these are. -/
noncomputable def sixfoldVolume (place : UInt32 → Vec3 ℝ) (ts : List (Triangle UInt32)) : ℝ :=
  (ts.map fun t => (t.map place).sixfoldVolume).sum

/-- The volume of a mesh that names vertices which are there is that of its triangles over them. -/
theorem signedVolume_eq_of_place
    (h : ∀ t ∈ m.triangles, t.Over fun i => m.vertices[i.toNat]? = some (place i)) :
    m.signedVolume = .ok (sixfoldVolume place m.triangles / 6) := by
  have hcorners : m.triangles.mapM m.corners = .ok (m.triangles.map (.map place)) := by
    refine mapM_eq_ok_of_forall₂ (List.forall₂_map_right_iff.2 (List.forall₂_same.2 ?_))
    exact fun t ht => corners_of_getElem? (h t ht).1 (h t ht).2.1 (h t ht).2.2
  have hsix : (6.0 : ℝ) = 6 := by norm_num
  rw [signedVolume, hcorners]
  change Except.ok (Scalar.sum _ / 6.0) = _
  rw [Scalar.sum_eq_sum, List.map_map, hsix]
  rfl

/-- The vertices that a well-formed mesh names are somewhere. -/
theorem WellFormed.exists_place (h : m.WellFormed) : ∃ place : UInt32 → Vec3 ℝ,
    ∀ t ∈ m.triangles, t.Over fun i => m.vertices[i.toNat]? = some (place i) := by
  refine ⟨fun i => m.vertices[i.toNat]?.getD .zero, fun t ht => (h.corner_lt t ht).imp ?_⟩
  intro i hi
  simp only [Array.getElem?_eq_getElem hi, Option.getD_some]

/-- Triangles that are turned around enclose the opposite volume. -/
theorem sixfoldVolume_flip (place : UInt32 → Vec3 ℝ) (ts : List (Triangle UInt32)) :
    sixfoldVolume place (ts.map .flip) = -sixfoldVolume place ts := by
  rw [sixfoldVolume, sixfoldVolume, List.sum_neg, List.map_map, List.map_map]
  exact congrArg List.sum (List.map_congr_left fun t _ => (t.map place).sixfoldVolume_flip)

/-- The volume where an affine map takes the vertices is a multiple of that where they were, and
    what is lost around the triangles. -/
theorem sixfoldVolume_apply (h : matrix.Affine) (place : UInt32 → Vec3 ℝ)
    (ts : List (Triangle UInt32)) : sixfoldVolume (fun i => matrix.apply (place i)) ts =
      matrix.determinant * sixfoldVolume place ts +
        around (fun i j => matrix.lost (place i) (place j)) ts := by
  induction ts with
  | nil => exact ((congrArg (· + 0) (mul_zero _)).trans (add_zero _)).symm
  | cons t ts ih =>
    have ht := h.sixfoldVolume_map_apply (t.map place)
    have hlost := around_map (f := matrix.lost) place [t]
    simp only [sixfoldVolume, List.map_cons, List.sum_cons] at ih hlost ⊢
    rw [ih, around_cons t ts, ← hlost, mul_add]
    change ((t.map place).map matrix.apply).sixfoldVolume + _ = _
    rw [ht]
    exact add_add_add_comm _ _ _ _

/-- An affine map takes a closed surface to one of as many times the volume as its determinant. -/
theorem Watertight.sixfoldVolume_apply (hclosed : m.Watertight) (h : matrix.Affine)
    (place : UInt32 → Vec3 ℝ) : sixfoldVolume (fun i => matrix.apply (place i)) m.triangles =
      matrix.determinant * sixfoldVolume place m.triangles := by
  rw [Mesh.sixfoldVolume_apply h, hclosed.around_eq_zero (matrix.alternating_lost.comp place),
    add_zero]

/-- A closed mesh that an affine map moves has the volume that it had, times the magnitude of the
    determinant. What faced outward still does, also where the map mirrors. -/
theorem signedVolume_transform (hm : m.WellFormed) (hclosed : m.Watertight)
    (h : matrix.Affine) :
    ∃ v, m.signedVolume = .ok v ∧
      (m.transform matrix).signedVolume = .ok (|matrix.determinant| * v) := by
  obtain ⟨place, hplace⟩ := hm.exists_place
  have hmoved : ∀ t ∈ m.triangles, t.Over fun i =>
      (m.vertices.map matrix.apply)[i.toNat]? = some (matrix.apply (place i)) := by
    refine fun t ht => (hplace t ht).imp fun i hi => ?_
    rw [Array.getElem?_map, hi, Option.map_some]
  have hvolume := hclosed.sixfoldVolume_apply h place
  refine ⟨_, signedVolume_eq_of_place hplace, ?_⟩
  by_cases hmirror : matrix.determinant < 0
  · have htransform : m.transform matrix =
        flip { m with vertices := m.vertices.map matrix.apply } := by
      rw [transform, if_pos]
      exact decide_eq_true (by rwa [Scalar.zero_eq])
    have hflip : ∀ t ∈ m.triangles.map Triangle.flip, t.Over fun i =>
        (m.vertices.map matrix.apply)[i.toNat]? = some (matrix.apply (place i)) :=
      List.forall_mem_map.2 fun t ht => Triangle.over_flip.2 (hmoved t ht)
    rw [htransform, signedVolume_eq_of_place hflip]
    change Except.ok (sixfoldVolume _ (m.triangles.map .flip) / 6) = _
    rw [sixfoldVolume_flip, hvolume, abs_of_neg hmirror, ← neg_mul, mul_div_assoc]
  · have htransform : m.transform matrix =
        { m with vertices := m.vertices.map matrix.apply } := by
      rw [transform, if_neg]
      exact fun hdet => hmirror (by simpa only [Scalar.zero_eq] using of_decide_eq_true hdet)
    rw [htransform, signedVolume_eq_of_place hmoved]
    change Except.ok (sixfoldVolume _ m.triangles / 6) = _
    rw [hvolume, abs_of_nonneg (not_lt.1 hmirror), mul_div_assoc]

end Mesh

end Solids

/-! ## A corner of a cube -/

namespace Solids

attribute [local instance] Session.coarseReading

/-- A corner of the unit cube that was cut off. -/
noncomputable def cutCorner : Mesh ℝ where
  vertices := #[⟨0, 0, 0⟩, ⟨1, 0, 0⟩, ⟨0, 1, 0⟩, ⟨0, 0, 1⟩]
  triangles := [⟨0, 2, 1⟩, ⟨0, 1, 3⟩, ⟨0, 3, 2⟩, ⟨1, 2, 3⟩]

/-- A map that mirrors, shears and moves. -/
noncomputable def slanted : Matrix ℝ :=
  ⟨⟨1, 1, 0, 0⟩, ⟨1, -1, 0, 0⟩, ⟨0, 1, 1, 0⟩, ⟨1, -1, 1, 1⟩⟩

/-- The corner is a sixth of the cube, and a third of one where the map takes it. -/
theorem Mesh.signedVolume_transform_cutCorner : cutCorner.WellFormed ∧ cutCorner.Watertight ∧
    slanted.Affine ∧ slanted.determinant = -2 ∧ cutCorner.signedVolume = .ok (1 / 6) ∧
      (cutCorner.transform slanted).signedVolume = .ok (1 / 3) := by
  have hformed : cutCorner.WellFormed := by decide
  have hperm : (cutCorner.edges.map Prod.swap).Perm cutCorner.edges := by decide
  have hclosed : cutCorner.Watertight := fun u v => by
    rw [← hperm.count_eq (u, v)]
    exact List.count_map_of_injective cutCorner.edges Prod.swap Prod.swap_injective (v, u)
  have haffine : slanted.Affine := ⟨rfl, rfl, rfl, rfl⟩
  have hdeterminant : slanted.determinant = -2 := by norm_num [Matrix.determinant, slanted]
  have hvolume : cutCorner.signedVolume = .ok (1 / 6) := by
    have hcorners : cutCorner.triangles.mapM cutCorner.corners = .ok [
        ⟨⟨0, 0, 0⟩, ⟨0, 1, 0⟩, ⟨1, 0, 0⟩⟩, ⟨⟨0, 0, 0⟩, ⟨1, 0, 0⟩, ⟨0, 0, 1⟩⟩,
        ⟨⟨0, 0, 0⟩, ⟨0, 0, 1⟩, ⟨0, 1, 0⟩⟩, ⟨⟨1, 0, 0⟩, ⟨0, 1, 0⟩, ⟨0, 0, 1⟩⟩] := rfl
    rw [Mesh.signedVolume, hcorners]
    change Except.ok (Scalar.sum _ / 6.0) = _
    rw [Scalar.sum_eq_sum]
    norm_num [Triangle.sixfoldVolume, Vec3.dot_eq, Vec3.cross]
  obtain ⟨v, hv, hmoved⟩ := Mesh.signedVolume_transform hformed hclosed haffine
  obtain rfl : v = 1 / 6 := Except.ok.inj (hv.symm.trans hvolume)
  refine ⟨hformed, hclosed, haffine, hdeterminant, hvolume, hmoved.trans (congrArg _ ?_)⟩
  rw [hdeterminant]
  norm_num

end Solids
