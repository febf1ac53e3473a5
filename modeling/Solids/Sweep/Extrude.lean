import Solids.Sweep.Stitch

/-!
# Extrusions

A profile swept one unit along its normal (`Path.extrude`), or along a rail (`Path.extrudeAlong`):
a copy of the profile stands at every point of the flattened rail, turned by the rail's direction
as an alignment says, and twisted in proportion to the way travelled so far. Closed profiles get
caps, and on a closed rail the last copy is joined to the first instead.
-/

namespace Solids

/-- How a profile is turned along a rail. -/
inductive Alignment
  /-- With the rail, each copy turned from the one before it, so that the profile never flips. -/
  | follow
  /-- Not at all. -/
  | axis
  /-- Its normal along the rail, at every point by the shortest turn. -/
  | tangent
  deriving DecidableEq

variable {α : Type} [Scalar α]

namespace Sweep

/-- The directions at the points of a rail, from the neighbors of each; the last good one where
    they coincide. -/
def tangentsFrom (last : Vec3 α) :
    List (Option (Vec3 α) × Vec3 α × Option (Vec3 α)) → List (Vec3 α)
  | [] => []
  | (before, p, after) :: rest =>
    let direction := (after.getD p - before.getD p).normalizeOrZero
    let good := if direction == .zero then last else direction
    good :: tangentsFrom good rest

/-- The unit directions along a rail. -/
def tangents (rail : List (Vec3 α)) (closed : Bool) (fallback : Vec3 α) : List (Vec3 α) :=
  tangentsFrom fallback (neighbors closed rail)

/-- The ways travelled along a rail up to each point, after `walked`. -/
def travelled (walked : α) : List (Vec3 α) → List α
  | [] => []
  | [_] => [walked]
  | p :: q :: rest => walked :: travelled (walked + q.distance p) (q :: rest)

/-- The length of a rail whose points lie `ways` from its start. -/
def railLength (rail : List (Vec3 α)) (closed : Bool) (ways : List α) : α :=
  let open_ := ways.getLast?.getD 0.0
  match closed, rail.head?, rail.getLast? with
  | true, some first, some last => open_ + last.distance first
  | _, _, _ => open_

/-- The turns that carry a profile from each direction to the next. -/
def carried (turn : Rotation α) (previous : Vec3 α) : List (Vec3 α) → List (Rotation α)
  | [] => []
  | t :: rest =>
    let turn := Rotation.arc previous t * turn
    turn :: carried turn t rest

/-- The turns of a profile with the given normal at the points of a rail. -/
def orientations (normal : Vec3 α) (directions : List (Vec3 α)) : Alignment → List (Rotation α)
  | .follow => carried .identity normal directions
  | .axis => directions.map fun _ => .identity
  | .tangent => directions.map (Rotation.arc normal)

end Sweep

namespace Path

/-- The profile swept one unit along its normal, half to either side of it. -/
def extrude (profile : Path α) : Mesh α :=
  match profile.ring? with
  | none => .empty
  | some (points, closed) =>
    let normal := profile.faceNormal
    let half := normal * (0.5 : α)
    Sweep.stitch [points.map (· - half), points.map (· + half)] closed
      (if closed then .capped normal normal else .bare)

/-- The profile swept along a rail, with `twist` radians of turn around its normal over the whole
    rail. -/
def extrudeAlong (profile rail : Path α) (twist : α) (align : Alignment) : Mesh α :=
  match profile.ring?, rail.ring? with
  | some (points, closed), some (track, railClosed) =>
    let normal := profile.faceNormal
    let directions := Sweep.tangents track railClosed normal
    let ways := Sweep.travelled 0.0 track
    let length := Sweep.railLength track railClosed ways
    -- The twist goes with the way travelled, however densely the points lie on it.
    let place (origin : Vec3 α) (way : α) (orientation : Rotation α) : List (Vec3 α) :=
      let share := if 0.0 < length then way / length else 0.0
      let turn := orientation * Rotation.aroundAxis normal (twist * share)
      points.map fun p => origin + turn.apply p
    let rings := (track.zip (ways.zip (Sweep.orientations normal directions align))).map
      fun (origin, way, orientation) => place origin way orientation
    let ends : Sweep.Ends α :=
      if railClosed then .joined
      else
        match closed, directions.head?, directions.getLast? with
        | true, some start, some finish => .capped start finish
        | _, _, _ => .bare
    Sweep.stitch rings closed ends
  | _, _ => .empty

end Path

end Solids
