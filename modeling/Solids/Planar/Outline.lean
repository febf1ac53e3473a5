import Solids.Cycle

/-!
# Outlines

A polygon of the plane as the list of its corners (`Outline`), its signed area, and the outline
that points of space make on a plane through the origin. A corner is named by its place
(`Outline.Corner`), so what is said in corners names none that is not there.
-/

namespace Solids

/-- A polygon of the plane by its corners, without a repeated end. -/
abbrev Outline (α : Type) : Type := Array (Vec2 α)

variable {α : Type}

namespace Outline

/-- A corner of an outline, by its place. -/
abbrev Corner (outline : Outline α) : Type := Fin outline.size

/-- The point at a corner. -/
def point (outline : Outline α) (i : outline.Corner) : Vec2 α := outline[i]

variable [Scalar α]

/-- Twice the signed area, positive for a counter-clockwise outline. -/
def signedArea (outline : Outline α) : α :=
  Scalar.sum ((steps true outline.toList).map fun (p, q) => p.perp q)

/-- The outline of points on the plane through the origin with a unit normal. Seen against the
    normal, it runs around as the points do. -/
def ofPoints (ps : Array (Vec3 α)) (normal : Vec3 α) : Outline α :=
  let u := normal.orthonormal
  let v := normal.cross u
  ps.map fun p => ⟨p.dot u, p.dot v⟩

/-- The outline has a corner for every point. -/
@[simp] theorem size_ofPoints (ps : Array (Vec3 α)) (normal : Vec3 α) :
    (ofPoints ps normal).size = ps.size := by
  simp [ofPoints]

end Outline

end Solids
