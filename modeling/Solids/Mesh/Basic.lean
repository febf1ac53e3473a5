import Solids.Bounds
import Solids.Fault
import Solids.Mesh.Color
import Solids.Mesh.Error

/-!
# Meshes

Triangles over a list of vertices, with a color per vertex once anything was painted. A mesh made
by this library is well formed: its triangles name vertices that are there, and it has no colors
or one for each vertex. A mesh that was written down may be neither; it is kept as it is, and
what reads through a bad index or cannot move it up faults (`Fault`).

The parts are read by different means: vertices and colors by index, triangles in order.
-/

namespace Solids

/-- A list of triangles over a list of vertices, painted or not. -/
structure Mesh (α : Type) where
  vertices : Array (Vec3 α) := #[]
  /-- Counter-clockwise seen from outside. -/
  triangles : List (Triangle UInt32) := []
  /-- One color per vertex, unless nothing was painted. -/
  colors : Option (Array Rgba) := none

namespace Mesh

variable {α : Type}

/-- The mesh without vertices. -/
def empty : Mesh α := {}

/-- The number of vertices, drawn or not. -/
def vertexCount (m : Mesh α) : Nat := m.vertices.size

/-- The number of triangles. -/
def triangleCount (m : Mesh α) : Nat := m.triangles.length

/-- Without triangles a mesh draws nothing, whatever its vertices. -/
def isEmpty (m : Mesh α) : Bool := m.triangles.isEmpty

/-- The vertices have colors of their own. -/
def isPainted (m : Mesh α) : Bool := m.colors.isSome

/-! ## Growing a mesh -/

/-- The index that the next vertex gets. -/
def nextIndex (m : Mesh α) : UInt32 := m.vertices.size.toUInt32

/-- A further vertex, unpainted. -/
def addVertex (m : Mesh α) (p : Vec3 α) : Mesh α :=
  { m with vertices := m.vertices.push p, colors := m.colors.map (·.push .unpainted) }

/-- A further triangle. -/
def addTriangle (m : Mesh α) (t : Triangle UInt32) : Mesh α :=
  { m with triangles := m.triangles ++ [t] }

/-- The mesh of given vertices and triangles, which must fit together. -/
def ofParts (vertices : Array (Vec3 α)) (triangles : List (Triangle UInt32)) :
    Except MeshError (Mesh α) :=
  match triangles.find? fun t => t.toList.any fun i => decide (vertices.size ≤ i.toNat) with
  | some t => .error (.danglingTriangle t vertices.size)
  | none => .ok { vertices, triangles }

/-! ## Reading -/

/-- The position of a vertex. -/
def vertex (m : Mesh α) (i : UInt32) : Except Fault (Vec3 α) :=
  match m.vertices[i.toNat]? with
  | some p => .ok p
  | none => .error (.vertex i)

/-- A triangle by its place. -/
def triangle (m : Mesh α) (i : Nat) : Except Fault (Triangle UInt32) :=
  match m.triangles[i]? with
  | some t => .ok t
  | none => .error (.triangle i)

/-- The color of a vertex. In a mesh that nobody painted every vertex is unpainted. -/
def vertexColor (m : Mesh α) (i : UInt32) : Except Fault Rgba :=
  match m.colors with
  | none => .ok .unpainted
  | some colors =>
    match colors[i.toNat]? with
    | some c => .ok c
    | none => .error (.color i)

/-- The positions of a triangle's corners. -/
def corners (m : Mesh α) (t : Triangle UInt32) : Except Fault (Triangle (Vec3 α)) :=
  t.mapM m.vertex

/-! ## Painting -/

/-- Every vertex painted in one color. -/
def paint (m : Mesh α) (c : Rgba) : Mesh α :=
  { m with colors := some (Array.replicate m.vertices.size c) }

/-- One vertex painted; the others keep their color or are unpainted. -/
def paintVertex (m : Mesh α) (i : UInt32) (c : Rgba) : Except Fault (Mesh α) :=
  let colors := m.colors.getD (Array.replicate m.vertices.size .unpainted)
  if i.toNat < colors.size then .ok { m with colors := some (colors.setIfInBounds i.toNat c) }
  else .error (.color i)

/-! ## Merging -/

/-- A color list brought to length `n`: cut off, or filled up with the unpainted color. -/
def fitColors (colors : Array Rgba) (n : Nat) : Array Rgba :=
  colors.take n ++ Array.replicate (n - colors.size) .unpainted

/-- The colors of two meshes put together: none if neither is painted. -/
def mergedColors (m n : Mesh α) : Option (Array Rgba) :=
  match m.colors, n.colors with
  | none, none => none
  | some own, none => some (fitColors own (m.vertices.size + n.vertices.size))
  | none, some theirs => some (Array.replicate m.vertices.size .unpainted ++ theirs)
  | some own, some theirs => some (own ++ theirs)

/-- The triangle over vertices that moved up by `base` places. -/
def shifted (base : UInt32) (t : Triangle UInt32) : Except Fault (Triangle UInt32) :=
  t.mapM fun i => checkedSum i base

/-- The vertices and triangles of two meshes, the second after the first. If one is painted, the
    other's vertices count as unpainted. -/
def merge (m n : Mesh α) : Except Fault (Mesh α) := do
  -- Only an index that points nowhere can be too great to move up.
  let moved ← n.triangles.mapM (shifted m.nextIndex)
  return {
    vertices := m.vertices ++ n.vertices
    triangles := m.triangles ++ moved
    colors := mergedColors m n }

/-- Meshes put together in order. -/
def mergeAll (ms : List (Mesh α)) : Except Fault (Mesh α) :=
  ms.foldlM merge empty

/-! ## Moving -/

/-- Every triangle faces the other way. -/
def flip (m : Mesh α) : Mesh α :=
  { m with triangles := m.triangles.map Triangle.flip }

variable [Scalar α]

/-- Every vertex moved by an offset. -/
def translate (m : Mesh α) (offset : Vec3 α) : Mesh α :=
  { m with vertices := m.vertices.map (· + offset) }

/-- Every vertex through a matrix. If it mirrors, the triangles are turned, so that they still
    face outward. -/
def transform (m : Mesh α) (matrix : Matrix α) : Mesh α :=
  -- A matrix that flattens the mesh mirrors nothing, and the triangles stay as they are.
  let moved := { m with vertices := m.vertices.map matrix.apply }
  if matrix.isMirror then moved.flip else moved

/-! ## Measures -/

/-- The least box around the vertices. -/
def bounds (m : Mesh α) : Bounds α :=
  .ofPoints m.vertices.toList

/-- The enclosed volume, positive if the triangles of a closed mesh face outward. -/
def signedVolume (m : Mesh α) : Except Fault α := do
  let corners ← m.triangles.mapM m.corners
  return Scalar.sum (corners.map Triangle.sixfoldVolume) / 6.0

/-- The triangle names three different vertices that are there and span an area. -/
def isProper (m : Mesh α) (t : Triangle UInt32) : Bool :=
  match m.corners t with
  | .ok p => t.a != t.b && t.b != t.c && t.a != t.c && p.hasArea
  | .error _ => false

/-- All triangles are proper. -/
def isValid (m : Mesh α) : Bool :=
  m.triangles.all m.isProper

end Mesh

end Solids
