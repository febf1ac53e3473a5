import Solids.Boolean.Tree
import Solids.Mesh.Basic

/-!
# Boolean operations

Union, difference, intersection and exclusive union of the solids that two meshes enclose, and the
stencil, which paints one solid onto the surface of another. Each mesh is divided by the planes of
its own triangles (`Tree`), and each is clipped by the other. Colors go with the triangles that
carry them.

A mesh none of whose triangles has an area encloses nothing; then no tree is made, and the other
operand decides alone.
-/

namespace Solids

/-- How the children of a combination are put together. -/
inductive Boolean
  | union
  | difference
  | intersection
  | xor
  | stencil
  deriving DecidableEq

variable {α : Type} [Scalar α]

namespace Mesh

/-- A triangle as a polygon, unless it has no area; painted as its first corner is. -/
def polygon? (m : Mesh α) (t : Triangle UInt32) : Except Fault (Option (Polygon α)) := do
  let corners ← m.corners t
  let color ← if m.isPainted then some <$> m.vertexColor t.a else pure none
  return Polygon.make? corners.toList color

/-- The triangles with an area, as polygons. -/
def polygons (m : Mesh α) : Except Fault (List (Polygon α)) :=
  return (← m.triangles.mapM m.polygon?).filterMap id

/-- The triangles of polygons, each a fan over vertices of its own that start at `base`. -/
def fanTriangles (base : Nat) : List (Polygon α) → List (Triangle UInt32)
  | [] => []
  | p :: ps =>
    let size := p.vertices.length
    (fan (List.range' base size)).map .toIndices ++ fanTriangles (base + size) ps

/-- The mesh of polygons. No vertices are shared. It is painted if one of them is. -/
def ofPolygons (ps : List (Polygon α)) : Mesh α where
  vertices := (ps.flatMap (·.vertices)).toArray
  triangles := fanTriangles 0 ps
  colors :=
    if ps.any (·.color.isSome)
    then some (ps.flatMap fun p =>
      List.replicate p.vertices.length (p.color.getD .unpainted)).toArray
    else none

/-- The trees of two meshes, unless one of them has no triangle with an area. -/
def trees (a b : Mesh α) : Except Fault (Option (Tree α × Tree α)) := do
  let ps ← a.polygons
  let qs ← b.polygons
  if ps.isEmpty || qs.isEmpty then return none
  else return some (← Tree.ofPolygons ps, ← Tree.ofPolygons qs)

/-- The mesh itself, or another one if no triangle of it has an area. -/
def orElse (m other : Mesh α) : Except Fault (Mesh α) :=
  return if (← m.polygons).isEmpty then other else m

/-- The space inside `a` or `b`. Of faces that lie on each other those of `a` stay. -/
def union (a b : Mesh α) : Except Fault (Mesh α) := do
  match ← trees a b with
  | none => a.orElse b
  | some (s, t) =>
    let s := s.clipTo t
    -- Turned around, the polygons of `t` that lie on polygons of `s` are clipped, too.
    let t := (((t.clipTo s).invert).clipTo s).invert
    return ofPolygons (← s.insert t.polygons).polygons

/-- The space inside `a` but not `b`: the complement of what is outside `a` or inside `b`. -/
def difference (a b : Mesh α) : Except Fault (Mesh α) := do
  match ← trees a b with
  | none => a.orElse .empty
  | some (s, t) =>
    let s := s.invert.clipTo t
    let t := (((t.clipTo s).invert).clipTo s).invert
    return ofPolygons (← s.insert t.polygons).invert.polygons

/-- The space inside `a` and `b`: the complement of what is outside either. -/
def intersection (a b : Mesh α) : Except Fault (Mesh α) := do
  match ← trees a b with
  | none => return .empty
  | some (s, t) =>
    let s := s.invert
    let t := (t.clipTo s).invert
    let s := s.clipTo t
    let t := t.clipTo s
    return ofPolygons (← s.insert t.polygons).invert.polygons

/-- The space inside exactly one of `a` and `b`, as the two differences. -/
def xor (a b : Mesh α) : Except Fault (Mesh α) := do
  (← a.difference b).merge (← b.difference a)

/-- The surface of `a`, painted where it lies inside `b` with the color of `b`, which is that of
    its first triangle's first corner. -/
def stencil (a b : Mesh α) : Except Fault (Mesh α) := do
  let ps ← a.polygons
  match ps.isEmpty, b.triangles with
  | true, _ | _, [] => return a
  | false, t :: _ =>
    let paint ← b.vertexColor t.a
    let tree ← Tree.ofPolygons (← b.polygons)
    let inside := (tree.invert.clip ps).map fun p => { p with color := some paint }
    return ofPolygons (tree.clip ps ++ inside)

/-- Two meshes combined. -/
def combine (op : Boolean) (a b : Mesh α) : Except Fault (Mesh α) :=
  match op with
  | .union => a.union b
  | .difference => a.difference b
  | .intersection => a.intersection b
  | .xor => a.xor b
  | .stencil => a.stencil b

end Mesh

end Solids
