import Solids.Mesh.Basic
import Solids.Path
import Solids.Planar.Triangulation

/-!
# Stitching rings

Every sweep leaves a row of rings, copies of one profile, and joins them here: neighboring rings
by two triangles for each step of the profile, the ends by caps. A face without area is left out.
The finished mesh is turned so that it encloses a positive volume, whichever way the profile ran.

A ring is walked as a list of vertices that carry the index they get in the mesh (`Vertex`), so
that no face is made from an index alone.
-/

namespace Solids.Sweep

/-- A vertex of the mesh in the making. -/
structure Vertex (α : Type) where
  index : UInt32
  position : Vec3 α

/-- The points of a face. -/
def positions {α : Type} (t : Triangle (Vertex α)) : Triangle (Vec3 α) := t.map (·.position)

variable {α : Type} [Scalar α]

/-- The rings with the indices that their points get, counted from `start`. -/
def number (start : Nat) : List (List (Vec3 α)) → List (List (Vertex α))
  | [] => []
  | ring :: rings =>
    ((ring.zipIdx start).map fun (p, i) => ⟨i.toUInt32, p⟩) :: number (start + ring.length) rings

/-- The outline of a ring seen against a direction. -/
def outlineOf (ring : Array (Vertex α)) (direction : Vec3 α) : Outline α :=
  .ofPoints (ring.map (·.position)) direction

/-- The outline has a corner for every vertex of the ring. -/
theorem size_outlineOf (ring : Array (Vertex α)) (direction : Vec3 α) :
    (outlineOf ring direction).size = ring.size := by
  simp [outlineOf]

/-- The vertex of a ring at a corner of its outline. -/
def vertexAt (ring : Array (Vertex α)) (direction : Vec3 α)
    (i : (outlineOf ring direction).Corner) : Vertex α :=
  ring[i.cast (size_outlineOf ring direction)]

/-- The cap of a ring, wound like the sides next to it. Sides face outward if the ring runs
    counter-clockwise around the direction of the sweep; then the cap at the end faces along it
    and the cap at the start against it. -/
def cap (ring : Array (Vertex α)) (direction : Vec3 α) (atEnd : Bool) :
    List (Triangle (Vertex α)) :=
  let outline := outlineOf ring direction
  -- The triangles of the outline face along the direction; the cap does not always.
  let back := atEnd != decide (0.0 < outline.signedArea)
  outline.triangulate.map fun t =>
    (if back then t.flip else t).map (vertexAt ring direction)

/-- How the ends of a row of rings are finished. -/
inductive Ends (α : Type)
  /-- They stay open. -/
  | bare
  /-- The last ring is joined to the first. -/
  | joined
  /-- Both get a cap; the sweep leaves the first and reaches the last in these directions. -/
  | capped (start finish : Vec3 α)

/-- The caps of a row of rings. -/
def caps (rings : List (List (Vertex α))) : Ends α → List (Triangle (Vertex α))
  | .capped start finish =>
    match rings.head?, rings.getLast? with
    | some first, some last => cap first.toArray start false ++ cap last.toArray finish true
    | _, _ => []
  | _ => []

/-- All faces over a row of rings, also those without area. -/
def faces (rings : List (List (Vertex α))) (closed : Bool) (ends : Ends α) :
    List (Triangle (Vertex α)) :=
  let joints := match ends with
    | .joined => steps true rings
    | _ => steps false rings
  joints.flatMap (fun (near, far) => band closed near far) ++ caps rings ends

/-- The mesh over a row of rings of equal length, where `closed` says whether the last point of a
    ring is joined to its first. -/
def stitch (rings : List (List (Vec3 α))) (closed : Bool) (ends : Ends α) : Mesh α :=
  if rings.length < 2 ∨ rings.any (·.length < 2) then .empty
  else
    -- All vertices stay, also those of the faces that are left out.
    let fs := (faces (number 0 rings) closed ends).filter fun f => (positions f).hasArea
    let mesh : Mesh α :=
      { vertices := rings.flatten.toArray
        triangles := fs.map (·.map (·.index)) }
    if Scalar.sum (fs.map fun f => (positions f).sixfoldVolume) / 6.0 < 0.0 then mesh.flip
    else mesh

end Solids.Sweep
