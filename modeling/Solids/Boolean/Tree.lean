import Solids.Boolean.Polygon
import Solids.Fault

/-!
# Space divided by planes

A tree of planes whose nodes hold the polygons that lie on them (`Tree`). It stands for a solid:
space is cut by the plane of the root, each half again by the tree on its side, and a half
without a tree is outside in front and solid behind. `Tree.clip` drops the parts of polygons that
lie inside the solid, `Tree.invert` turns inside and outside around.

A tree is made from polygons by taking the plane of the first to divide the others
(`Tree.ofPolygons`). The first lies on its own plane and stays with it, so fewer are left on each
side. Rounding can put it off that plane, if its corners are far apart; it would then be handed
down forever, which is a fault (`Fault.endlessDivision`).
-/

namespace Solids

/-- A tree of planes with the polygons that lie on each. A half of space without further planes
    is a `leaf`. -/
inductive Tree (α : Type)
  | leaf
  | node (plane : Plane α) (polygons : List (Polygon α)) (front back : Tree α)

variable {α : Type} [Scalar α]

namespace Tree

/-- The tree that divides space by the planes of the given polygons. -/
def ofPolygons : List (Polygon α) → Except Fault (Tree α)
  | [] => .ok .leaf
  | p :: ps =>
    if _h : p.liesOn p.plane = true then do
      let parts := p.plane.sort (p :: ps)
      let front ← ofPolygons parts.front
      let back ← ofPolygons parts.back
      return .node p.plane (parts.onFront ++ parts.onBack) front back
    else .error .endlessDivision
termination_by ps => ps.length
decreasing_by
  · exact (Plane.length_sort_cons_lt _h).1
  · exact (Plane.length_sort_cons_lt _h).2

/-- The tree with further polygons, cut along its planes. -/
def insert : Tree α → List (Polygon α) → Except Fault (Tree α)
  | .leaf, ps => ofPolygons ps
  | .node plane polygons front back, ps => do
    let parts := plane.sort ps
    let front ← front.insert parts.front
    let back ← back.insert parts.back
    return .node plane (polygons ++ (parts.onFront ++ parts.onBack)) front back

/-- The tree of the complement. -/
def invert : Tree α → Tree α
  | .leaf => .leaf
  | .node plane polygons front back =>
    .node plane.flip (polygons.map Polygon.flip) back.invert front.invert

/-- The parts of polygons outside the solid. A tree without planes keeps all of them. -/
def clip : Tree α → List (Polygon α) → List (Polygon α)
  | .leaf, ps => ps
  | .node plane _ front back, ps =>
    let parts := plane.sort ps
    -- Polygons on the plane count to the side that they face.
    let behind := match back with
      | .leaf => []
      | back => back.clip (parts.back ++ parts.onBack)
    front.clip (parts.front ++ parts.onFront) ++ behind

/-- The tree with its polygons clipped by another tree. -/
def clipTo : Tree α → Tree α → Tree α
  | .leaf, _ => .leaf
  | .node plane polygons front back, other =>
    .node plane (other.clip polygons) (front.clipTo other) (back.clipTo other)

/-- All polygons, those of a node before those in front of and behind it. -/
def polygons : Tree α → List (Polygon α)
  | .leaf => []
  | .node _ own front back => own ++ front.polygons ++ back.polygons

end Tree

end Solids
