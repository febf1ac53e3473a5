import Solids.Hull.Growth
import Solids.Mesh.Basic

/-!
# Convex hulls

The convex hull of a list of points. Points that coincide with an earlier one are left out. Four
points far apart span a first tetrahedron, every other point is parked on one of its faces, and
the hull grows until no point is left outside (`Hull.grow`). The center of the tetrahedron stays
inside while the hull grows, and tells the outside of every new face.

The vertices of the mesh keep the order of the points. Fewer than four distinct points, and points
that all lie on a line or in a plane, have no hull (`MeshError`).
-/

namespace Solids

variable {α : Type} [Scalar α]

namespace Hull

/-- The points that do not coincide with an earlier one that was kept. -/
def distinct (points : List (Vec3 α)) : Cloud α :=
  points.foldl (fun kept p =>
    if kept.all fun k => tolerance ≤ k.distance p then kept.push p else kept) #[]

variable (cloud : Cloud α)

/-- The places of the least and the greatest point along each axis. -/
def extremes : List cloud.Place :=
  [Vec3.x, Vec3.y, Vec3.z].flatMap fun along =>
    let before (i j : cloud.Place) : Bool :=
      Scalar.precedes (along (cloud.point i)) (along (cloud.point j))
    let all := List.finRange cloud.size
    (firstLeast? before all).toList ++ (lastGreatest? before all).toList

/-- The pair of extreme points farthest apart; of several the first. -/
def widest (first : cloud.Place) : cloud.Place × cloud.Place :=
  -- Extremes of different axes may be one point, which is no distance from itself.
  let best := (pairs (extremes cloud)).foldl
    (fun (best : α × cloud.Place × cloud.Place) (i, j) =>
      let gap := (cloud.point i).distanceSq (cloud.point j)
      if best.1 < gap then (gap, i, j) else best)
    (0.0, first, first)
  best.2

/-- The last of the points of greatest measure, among those not in `skip` that measure more than
    the tolerance. -/
def farthest? (skip : List cloud.Place) (measure : Vec3 α → α) : Option cloud.Place :=
  let of (i : cloud.Place) : α := measure (cloud.point i)
  let far := (List.finRange cloud.size).filter fun i =>
    !skip.contains i && decide (tolerance < of i)
  lastGreatest? (fun i j => Scalar.precedes (of i) (of j)) far

/-- The corners of a first tetrahedron. -/
structure Seed where
  a : cloud.Place
  b : cloud.Place
  c : cloud.Place
  d : cloud.Place

/-- A first tetrahedron: two points far apart, the point farthest from their line, and the point
    farthest from the plane of the three. -/
def seed (first : cloud.Place) : Except MeshError (Seed cloud) :=
  let (a, b) := widest cloud first
  let (p, q) := (cloud.point a, cloud.point b)
  let direction := (q - p).normalizeOrZero
  match farthest? cloud [a, b] fun r => ((r - p).cross direction).length with
  | none => .error .hullCollinear
  | some c =>
    let normal := ((q - p).cross (cloud.point c - p)).normalizeOrZero
    match farthest? cloud [a, b, c] fun r => Scalar.abs (normal.dot (r - p)) with
    | none => .error .hullCoplanar
    | some d => .ok ⟨a, b, c, d⟩

namespace Seed

variable {cloud : Cloud α}

/-- The four corners. -/
def corners (s : Seed cloud) : List cloud.Place := [s.a, s.b, s.c, s.d]

/-- The center of the tetrahedron. -/
def center (s : Seed cloud) : Vec3 α :=
  (cloud.point s.a + cloud.point s.b + cloud.point s.c + cloud.point s.d) / (4.0 : α)

/-- The faces of the tetrahedron, with every other point parked. -/
def faces (s : Seed cloud) : List (Face cloud) :=
  let sides : List (Triangle cloud.Place) :=
    [⟨s.a, s.b, s.c⟩, ⟨s.a, s.c, s.d⟩, ⟨s.a, s.d, s.b⟩, ⟨s.b, s.d, s.c⟩]
  Face.parkAll (sides.map (Face.make s.center))
    ((List.finRange cloud.size).filter fun i => !s.corners.contains i)

end Seed

/-- The places of a cloud that are corners of a face, in order. -/
def usedPlaces (fs : List (Face cloud)) : List cloud.Place :=
  (List.finRange cloud.size).filter fun i => fs.any fun f => f.corners.toList.contains i

/-- The mesh of a hull's faces, without the points that are no corners. -/
def toMesh (fs : List (Face cloud)) : Mesh α :=
  let used := usedPlaces cloud fs
  { vertices := (used.map cloud.point).toArray
    triangles := fs.map fun f => (f.corners.map used.idxOf).toIndices }

end Hull

/-- The convex hull of points. -/
def convexHull (points : List (Vec3 α)) : Except MeshError (Mesh α) :=
  let cloud := Hull.distinct points
  if h : cloud.size < 4 then .error (.hullPoints cloud.size)
  else do
    let seed ← Hull.seed cloud ⟨0, by omega⟩
    return Hull.toMesh cloud (Hull.grow seed.center seed.faces)

/-- The convex hull of loose points and of the vertices of meshes; nothing if there are none. -/
def hullOf (points : List (Vec3 α)) (meshes : List (Mesh α)) : Except MeshError (Mesh α) :=
  let all := points ++ meshes.flatMap fun m => m.vertices.toList
  if all.isEmpty then .ok .empty else convexHull all

end Solids
