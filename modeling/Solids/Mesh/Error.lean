import Solids.Triangle

/-!
# Mesh errors

Why geometry could not be made into a mesh, as typed causes (`MeshError`), with their kinds and
texts. A degenerate cause is a valid request for something without extent; a topology cause is a
triangle that names a vertex which is not there.
-/

namespace Solids

/-- Why geometry could not be made into a mesh. -/
inductive MeshError
  /-- A cylinder or cone of too few segments. -/
  | cylinderSegments (segments : UInt32)
  /-- A sphere of too few segments. -/
  | sphereSegments (segments : UInt32)
  /-- A full turn in too few segments. -/
  | latheSegments (segments : UInt32)
  /-- Too few distinct points for a hull. -/
  | hullPoints (count : Nat)
  /-- All points of a hull on one line. -/
  | hullCollinear
  /-- All points of a hull in one plane. -/
  | hullCoplanar
  /-- A triangle with a corner past the list of vertices. -/
  | danglingTriangle (triangle : Triangle UInt32) (vertexCount : Nat)
  deriving DecidableEq

/-- The fewest segments that enclose a volume. -/
def minSegments : Nat := 3

namespace MeshError

/-- The two kinds of errors. -/
inductive Kind
  | degenerate
  | topology
  deriving DecidableEq

/-- The kind of an error: only a dangling triangle is one of topology. -/
def kind : MeshError → Kind
  | danglingTriangle _ _ => .topology
  | _ => .degenerate

/-- What went wrong, without the kind. -/
def detail : MeshError → String
  | cylinderSegments n => s!"Cylinder segments must be at least {minSegments}: {n}"
  | sphereSegments n => s!"Sphere segments must be at least {minSegments}: {n}"
  | latheSegments n => s!"lathe requires at least {minSegments} segments, got {n}"
  | hullPoints n => s!"convex hull needs 4 distinct points, got {n}"
  | hullCollinear => "all hull points are collinear"
  | hullCoplanar => "all hull points are coplanar"
  | danglingTriangle t n =>
    s!"triangle [{t.a}, {t.b}, {t.c}] references a vertex beyond {n}"

/-- The text of an error. -/
def message (e : MeshError) : String :=
  match e.kind with
  | .degenerate => "Degenerate geometry: " ++ e.detail
  | .topology => "Invalid topology: " ++ e.detail

end MeshError

end Solids
