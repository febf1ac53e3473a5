import Solids.Kind.Basic

/-!
# The extent of a kind

A box that holds what a kind describes, found from its parameters without building anything
(`Kind.bounds`). It may be larger than the mesh and is never meant to be smaller. Groups,
combinations and marks have the empty box: their extent is that of their children.
-/

namespace Solids

variable {α : Type} [Scalar α]

namespace Path

/-- The box of a profile swept half a unit to either side along its normal. -/
def extrusionBounds (path : Path α) : Bounds α :=
  -- Moved by half the normal either way, the box takes in both ends of the sweep.
  let half := path.faceNormal / (2.0 : α)
  (path.bounds.translated (-half)).union (path.bounds.translated half)

/-- The box of a profile revolved around the vertical axis. -/
def revolutionBounds (path : Path α) : Bounds α :=
  let b := path.bounds
  let reach (low high : α) : α := Scalar.greater (Scalar.abs low) (Scalar.abs high)
  let radius := Scalar.hypot (reach b.min.x b.max.x) (reach b.min.z b.max.z)
  ⟨⟨-radius, b.min.y, -radius⟩, ⟨radius, b.max.y, radius⟩⟩

/-- The paths of a list that are lines. -/
def usable (paths : List (Path α)) : List (Path α) :=
  paths.filter fun p => !p.isEmpty

end Path

namespace Bounds

/-- The least box around a list of boxes. -/
def unionAll (bs : List (Bounds α)) : Bounds α :=
  bs.foldl union empty

end Bounds

/-- The box of profiles swept along rails: around each rail, by the radius of the largest
    profile. -/
def Extrusion.railBounds (options : Extrusion α) (paths : List (Path α)) : Bounds α :=
  let radius : α := ((Path.usable paths).map Path.radius).foldl Scalar.greater (-Scalar.infinity)
  if radius == -Scalar.infinity then .empty
  else .unionAll ((Path.usable options.along).map fun rail => rail.bounds.expanded radius)

namespace Kind

/-- A box that holds what the kind describes, without its children. -/
def bounds : Kind α → Bounds α
  | cone _ | cylinder _ | sphere _ | cube => .unit
  | extrude paths options =>
    if options.along.isEmpty then .unionAll ((Path.usable paths).map Path.extrusionBounds)
    else options.railBounds paths
  | lathe paths _ => .unionAll ((Path.usable paths).map Path.revolutionBounds)
  | loft paths | fill paths => .unionAll (paths.map Path.bounds)
  | hull points => .ofPoints points
  | path p => p.bounds
  | mesh m => m.bounds
  | group | combination _ | camera _ | light _ => .empty

end Kind

end Solids
