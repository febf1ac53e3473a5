import Solids.Cycle
import Solids.Mesh.Color
import Solids.Vector

/-!
# Polygons cut by planes

Convex polygons that carry the plane they lie in and a color, and what a plane makes of one
(`Polygon.cut`). Of a polygon within the tolerance of the plane the orientation decides on which
side it counts, one to a side of the plane stays whole, and one that reaches to both sides is cut
in two. Both parts keep the plane of the whole: to find it anew from slivers would only add noise.
-/

namespace Solids

/-- A plane by its unit normal and its distance from the origin along it. -/
structure Plane (α : Type) where
  normal : Vec3 α
  offset : α

/-- A convex polygon with the plane it lies in, counter-clockwise seen from the front. -/
structure Polygon (α : Type) where
  vertices : List (Vec3 α)
  plane : Plane α
  /-- The color, unless the polygon was not painted. -/
  color : Option Rgba := none

variable {α : Type} [Scalar α]

/-! ## Planes -/

/-- Where a point lies from a plane. -/
inductive Side
  | on
  | front
  | back
  deriving DecidableEq

namespace Plane

/-- The plane through three points, counter-clockwise seen from the front, unless they are on one
    line. -/
def through? (a b c : Vec3 α) : Option (Plane α) :=
  let normal := (b - a).cross (c - a)
  let length := normal.length
  if length < tolerance then none
  else
    let normal := normal / length
    some ⟨normal, normal.dot a⟩

/-- The plane facing the other way. -/
def flip (p : Plane α) : Plane α := ⟨-p.normal, -p.offset⟩

/-- The signed distance of a point in front of the plane. -/
def distance (p : Plane α) (v : Vec3 α) : α := p.normal.dot v - p.offset

/-- Where a point lies. -/
def side (p : Plane α) (v : Vec3 α) : Side :=
  let t := p.distance v
  if t < -planeTolerance then .back else if planeTolerance < t then .front else .on

/-- The point where the way from `v` to `w` meets the plane. -/
def crossing (p : Plane α) (v w : Vec3 α) : Vec3 α :=
  v.lerp w ((p.offset - p.normal.dot v) / p.normal.dot (w - v))

end Plane

/-! ## Cutting -/

/-- Polygons sorted by their place from a plane. -/
structure Parts (α : Type) where
  /-- On the plane and facing as it does. -/
  onFront : List (Polygon α) := []
  /-- On the plane and facing the other way. -/
  onBack : List (Polygon α) := []
  front : List (Polygon α) := []
  back : List (Polygon α) := []

/-- The polygons of two sortings, the second after the first. -/
def Parts.append (p q : Parts α) : Parts α :=
  ⟨p.onFront ++ q.onFront, p.onBack ++ q.onBack, p.front ++ q.front, p.back ++ q.back⟩

namespace Polygon

/-- The polygon over its vertices, unless the first three are on one line. -/
def make? (vertices : List (Vec3 α)) (color : Option Rgba) : Option (Polygon α) :=
  match vertices with
  | a :: b :: c :: _ => (Plane.through? a b c).map fun plane => { vertices, plane, color }
  | _ => none

/-- The polygon facing the other way. -/
def flip (p : Polygon α) : Polygon α :=
  { p with vertices := p.vertices.reverse, plane := p.plane.flip }

/-- A vertex lies on a side of a plane. -/
def touches (p : Polygon α) (plane : Plane α) (s : Side) : Bool :=
  p.vertices.any fun v => plane.side v == s

/-- All vertices lie on a plane. -/
def liesOn (p : Polygon α) (plane : Plane α) : Bool :=
  !p.touches plane .front && !p.touches plane .back

/-- The point at which the step from `v` to `w` passes from one side of a plane to the other. -/
def crossing? (plane : Plane α) (v w : Vec3 α) : Option (Vec3 α) :=
  match plane.side v, plane.side w with
  | .front, .back | .back, .front => some (plane.crossing v w)
  | _, _ => none

/-- What is left of a polygon off the side `away`: the other vertices, and the crossings. -/
def half (p : Polygon α) (plane : Plane α) (away : Side) : List (Vec3 α) :=
  (steps true p.vertices).flatMap fun (v, w) =>
    (if plane.side v == away then [] else [v]) ++ (crossing? plane v w).toList

/-- A part of a polygon, if it is one. -/
def part (p : Polygon α) (vertices : List (Vec3 α)) : List (Polygon α) :=
  if 3 ≤ vertices.length then [{ p with vertices }] else []

/-- A polygon sorted by a plane, in two parts if it reaches to both sides. -/
def cut (plane : Plane α) (p : Polygon α) : Parts α :=
  match p.touches plane .front, p.touches plane .back with
  | false, false =>
    if 0.0 < plane.normal.dot p.plane.normal then { onFront := [p] } else { onBack := [p] }
  | true, false => { front := [p] }
  | false, true => { back := [p] }
  | true, true =>
    { front := p.part (p.half plane .back), back := p.part (p.half plane .front) }

end Polygon

/-- Polygons sorted by a plane, in order. -/
def Plane.sort (plane : Plane α) (ps : List (Polygon α)) : Parts α :=
  ps.foldr (fun p parts => (p.cut plane).append parts) {}

/-! ## Cutting makes no more polygons than there were -/

/-- A polygon leaves at most one part on either side. -/
theorem Polygon.length_cut_le (plane : Plane α) (p : Polygon α) :
    (p.cut plane).front.length ≤ 1 ∧ (p.cut plane).back.length ≤ 1 := by
  simp only [cut, part]
  split
  · split <;> simp
  · simp
  · simp
  · constructor <;> simp only <;> split <;> simp

/-- A polygon on the plane leaves no part on either side. -/
theorem Polygon.cut_eq_nil_of_liesOn {plane : Plane α} {p : Polygon α}
    (h : p.liesOn plane = true) : (p.cut plane).front = [] ∧ (p.cut plane).back = [] := by
  simp only [liesOn, Bool.and_eq_true, Bool.not_eq_true'] at h
  simp only [cut, h.1, h.2]
  split <;> simp

/-- Sorting leaves no more polygons on either side than there were. -/
theorem Plane.length_sort_le (plane : Plane α) (ps : List (Polygon α)) :
    (plane.sort ps).front.length ≤ ps.length ∧ (plane.sort ps).back.length ≤ ps.length := by
  induction ps with
  | nil => simp [sort]
  | cons p ps ih =>
    have hp := p.length_cut_le plane
    simp only [sort, List.foldr_cons, Parts.append, List.length_append, List.length_cons]
      at ih ⊢
    omega

/-- A polygon on the plane itself stays there, so that fewer are left on either side. -/
theorem Plane.length_sort_cons_lt {plane : Plane α} {p : Polygon α} {ps : List (Polygon α)}
    (h : p.liesOn plane = true) :
    (plane.sort (p :: ps)).front.length < ps.length + 1
      ∧ (plane.sort (p :: ps)).back.length < ps.length + 1 := by
  have hp := p.cut_eq_nil_of_liesOn h
  have hps := plane.length_sort_le ps
  simp only [sort, List.foldr_cons, Parts.append, hp.1, hp.2, List.nil_append] at hps ⊢
  omega

end Solids
