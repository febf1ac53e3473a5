import Solids.Mesh.Basic
import Solids.Path

/-!
# Cylinder, cone and sphere

Round shapes around the vertical axis that fit the unit cube, in a given number of segments. All
are rings of vertices, one above the other, joined by bands and closed by fans; the cone has a
single vertex in place of its upper ring. Fewer than `minSegments` segments enclose nothing and
are an error.

The vertices of a mesh are its rings in order, so the triangles are found on the places alone
(`places`).
-/

namespace Solids.Primitive

/-- The places of the vertices of the `i`-th ring, for rings of `n` vertices. -/
def places (n i : Nat) : List Nat := List.range' (i * n) n

/-- The fan that closes a ring from below. -/
def floor (ring : List Nat) : List (Triangle Nat) := (fan ring).map .flip

/-- The band between two rings from above, each square of it split downward. -/
def skirt (upper lower : List Nat) : List (Triangle Nat) :=
  (steps true (upper.zip lower)).flatMap fun ((p, p'), (q, q')) => fan [p, p', q', q]

variable {α : Type} [Scalar α]

/-- The vertices of a ring around the vertical axis. -/
def ring (n : Nat) (radius height : α) : List (Vec3 α) :=
  (List.range n).map fun j =>
    let angle := Path.turnAngle j n
    ⟨radius * Scalar.cos angle, height, -radius * Scalar.sin angle⟩

/-- The mesh over rings of vertices. -/
def overRings (rings : List (List (Vec3 α))) (triangles : List (Triangle Nat)) : Mesh α where
  vertices := rings.flatten.toArray
  triangles := triangles.map .toIndices

/-- The cylinder of radius one half and height one around the origin. -/
def cylinder (segments : UInt32) : Except MeshError (Mesh α) :=
  let n := segments.toNat
  if n < minSegments then .error (.cylinderSegments segments)
  else .ok (overRings [ring n 0.5 (-0.5), ring n 0.5 0.5]
    (band true (places n 0) (places n 1) ++ floor (places n 0) ++ fan (places n 1)))

/-- The cone of base radius one half and height one around the origin, its apex above. -/
def cone (segments : UInt32) : Except MeshError (Mesh α) :=
  let n := segments.toNat
  if n < minSegments then .error (.cylinderSegments segments)
  else .ok (overRings [ring n 0.5 (-0.5), [⟨0.0, 0.5, 0.0⟩]]
    ((steps true (places n 0)).map (fun (i, j) => ⟨i, j, n⟩) ++ floor (places n 0)))

/-- The number of rings of a sphere, half that of its segments and rounded up. The segments are
    counted on by one for it, so the greatest number of segments faults. -/
def ringCount (segments : UInt32) : Except Fault Nat :=
  return (← checkedSum segments 1).toNat / 2

/-- The `i`-th of the rings of a sphere of radius one half, from above. -/
def sphereRing (n rings i : Nat) : List (Vec3 α) :=
  let polar : α := Scalar.pi * (Scalar.ofNat i + 0.5) / Scalar.ofNat rings
  ring n (0.5 * Scalar.sin polar) (0.5 * Scalar.cos polar)

/-- A sphere over a number of rings of `n` vertices. -/
def sphereOver (n rings : Nat) : Mesh α :=
  let last := rings - 1
  overRings ((List.range rings).map (sphereRing n rings))
    (fan (places n 0)
      ++ (List.range last).flatMap (fun i => skirt (places n i) (places n (i + 1)))
      ++ floor (places n last))

/-- The sphere of radius one half around the origin, without vertices at its poles. -/
def sphere (segments : UInt32) : Except Fault (Except MeshError (Mesh α)) := do
  if segments.toNat < minSegments then return .error (.sphereSegments segments)
  else return .ok (sphereOver segments.toNat (← ringCount segments))

end Solids.Primitive
