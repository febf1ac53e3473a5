import Solids.Bounds
import Solids.Cycle

/-!
# Paths

Sequences of points that serve as profiles, rails and outlines. A curved point pulls the path
toward it: the path runs as a parabola from the last point passed to the next, where two curved
neighbors meet halfway between them. `Path.flattened` gives the path as straight runs; it never
leaves the box of the points, which is why `Path.bounds` needs no flattening.
-/

namespace Solids

/-- A point of a path. -/
structure Waypoint (α : Type) where
  position : Vec3 α
  /-- The path bends toward the point instead of passing through it. -/
  curved : Bool := false

/-- A line through points, open or closed. -/
structure Path (α : Type) where
  points : List (Waypoint α) := []

/-- The number of straight runs for one curved point. -/
def curveSteps : Nat := 8

variable {α : Type} [Scalar α]

namespace Waypoint

/-- A point of the plane that the path passes through. -/
def sharp (x y : α) : Waypoint α := ⟨⟨x, y, 0.0⟩, false⟩

/-- A point of the plane that the path bends toward. -/
def bend (x y : α) : Waypoint α := ⟨⟨x, y, 0.0⟩, true⟩

/-- Where the run from `p` to the curved point `q` begins or ends: at `p`, or halfway if that is
    curved, too. -/
def joint (p q : Waypoint α) : Vec3 α :=
  if p.curved then p.position.lerp q.position 0.5 else p.position

end Waypoint

namespace Path

/-- Too few points for a line. -/
def isEmpty (path : Path α) : Bool :=
  path.points.length < 2

/-- The last of at least three points coincides with the first. -/
def isClosed (path : Path α) : Bool :=
  match path.points.head?, path.points.getLast? with
  | some first, some last =>
    2 < path.points.length && first.position.distance last.position < tolerance
  | _, _ => false

/-! ## Making paths -/

/-- The straight line through points. -/
def polyline (ps : List (Vec3 α)) : Path α :=
  ⟨ps.map fun p => { position := p }⟩

/-- The closed line through points; the first is repeated at the end if need be. -/
def polygon (ps : List (Vec3 α)) : Path α :=
  let line := polyline ps
  match line.points.head? with
  | some first =>
    if 2 < line.points.length ∧ !line.isClosed then ⟨line.points ++ [first]⟩ else line
  | none => line

/-- The angle of the `i`-th of `n` equal parts of a full turn. -/
def turnAngle (i n : Nat) : α :=
  2.0 * Scalar.pi * Scalar.ofNat i / Scalar.ofNat n

/-- A closed regular polygon of radius one half; at least a triangle. -/
def circle (segments : Nat) : Path α :=
  let n := max segments 3
  let corner (i : Nat) : Vec3 α :=
    ⟨0.5 * Scalar.cos (turnAngle i n), 0.5 * Scalar.sin (turnAngle i n), 0.0⟩
  polyline ((List.range n).map corner ++ [corner 0])

/-- A closed unit square around the origin. -/
def square : Path α :=
  polyline [⟨-0.5, -0.5, 0.0⟩, ⟨0.5, -0.5, 0.0⟩, ⟨0.5, 0.5, 0.0⟩, ⟨-0.5, 0.5, 0.0⟩,
    ⟨-0.5, -0.5, 0.0⟩]

/-! ## Measures -/

/-- The least box around the points, which holds all of the path. -/
def bounds (path : Path α) : Bounds α :=
  .ofPoints (path.points.map (·.position))

/-- The greatest distance of a point from the origin. -/
def radius (path : Path α) : α :=
  (path.points.map fun p => p.position.length).foldl Scalar.greater 0.0

/-! ## Flattening -/

/-- The point at a share `t` of the parabola from `start` to `finish` that leaves toward
    `control`. -/
def quadratic (start control finish : Vec3 α) (t : α) : Vec3 α :=
  let u := 1.0 - t
  start * (u * u) + control * (2.0 * u * t) + finish * (t * t)

/-- The points that stand for a curved point with two neighbors: inside its parabola, and the end
    of it if the next point is curved, too. -/
def bentRun (before point after : Waypoint α) : List (Vec3 α) :=
  let start := before.joint point
  let finish := if after.curved then point.position.lerp after.position 0.5 else after.position
  let inner := (List.range (curveSteps - 1)).map fun i =>
    quadratic start point.position finish (Scalar.ofNat (i + 1) / Scalar.ofNat curveSteps)
  if after.curved then inner ++ [finish] else inner

/-- The points that stand for one point of the path. A curved end of an open path is passed
    through. -/
def run : Option (Waypoint α) × Waypoint α × Option (Waypoint α) → List (Vec3 α)
  | (some before, point, some after) =>
    if point.curved then bentRun before point after else [point.position]
  | (_, point, _) => [point.position]

/-- The path as straight runs. A closed path ends where it began. -/
def flattened (path : Path α) : List (Vec3 α) :=
  if path.points.length < 3 ∨ !path.points.any (·.curved) then path.points.map (·.position)
  else if path.isClosed then
    -- The repeated end is no neighbor; it is left out here and the start is repeated afterwards.
    let ring := (neighbors true path.points.dropLast).flatMap run
    ring ++ ring.head?.toList
  else (neighbors false path.points).flatMap run

/-- The normal of the plane that a closed sequence of points winds around, as the sum of its
    steps' shares. -/
def windingNormal (ps : List (Vec3 α)) : Vec3 α :=
  (steps true ps).foldl (fun n (p, q) =>
    ⟨n.x + (p.y - q.y) * (p.z + q.z),
     n.y + (p.z - q.z) * (p.x + q.x),
     n.z + (p.x - q.x) * (p.y + q.y)⟩) .zero

/-- The unit normal of the plane that the path winds around, and the third axis for a path that
    encloses no area. -/
def faceNormal (path : Path α) : Vec3 α :=
  let n := windingNormal path.flattened
  if approxZero n.length then .unitZ else n.normalize

/-- The flattened path without the repeated end of a closed one, and whether it is closed;
    nothing for a path that is no line. -/
def ring? (path : Path α) : Option (List (Vec3 α) × Bool) :=
  if path.isEmpty then none
  else
    let closed := path.isClosed
    let ps := if closed then path.flattened.dropLast else path.flattened
    if 2 ≤ ps.length then some (ps, closed) else none

end Path

end Solids
