import Solids.Sweep.Stitch

/-!
# Lathes

A profile revolved around the vertical axis by a full turn. The rings are copies of the profile,
joined all around. Where the profile touches the axis the faces between the copies have no area
and are left out, so a profile that begins and ends there makes a closed solid.
-/

namespace Solids

variable {α : Type} [Scalar α]

/-- The profile revolved around the vertical axis in a number of equal steps. -/
def Path.lathe (profile : Path α) (segments : UInt32) : Except MeshError (Mesh α) :=
  let n := segments.toNat
  if n < minSegments then .error (.latheSegments segments)
  else
    match profile.ring? with
    | none => .ok .empty
    | some (points, closed) =>
      let rings := (List.range n).map fun k =>
        points.map (Rotation.aroundY (Path.turnAngle k n)).apply
      .ok (Sweep.stitch rings closed .joined)

end Solids
