import Solids.Sweep.Stitch

/-!
# Lofts

A tube through profiles in order. Each profile is resampled to the point count of the largest one,
by points at equal distances along it (`Sweep.resample`). If all profiles are closed the tube is,
too, and gets caps; fewer than two usable profiles make nothing.
-/

namespace Solids

variable {α : Type} [Scalar α]

namespace Sweep

/-- The segments that are left once `walked` has come up to `target` or the last segment is
    reached, and the length walked until there. -/
def advance (target walked : α) :
    List (Vec3 α × Vec3 α) → List (Vec3 α × Vec3 α) × α
  | s :: s' :: rest =>
    if walked + s.1.distance s.2 < target
    then advance target (walked + s.1.distance s.2) (s' :: rest)
    else (s :: s' :: rest, walked)
  | segments => (segments, walked)

/-- The point of a segment at a distance from its start, or its nearer end. -/
def pointAt (s : Vec3 α × Vec3 α) (distance : α) : Vec3 α :=
  let length := s.1.distance s.2
  let share := if 0.0 < length then Scalar.clampUnit (distance / length) else 0.0
  s.1.lerp s.2 share

/-- The points at the given distances, in rising order, along a row of segments. -/
def sample (segments : List (Vec3 α × Vec3 α)) (walked : α) : List α → List (Vec3 α)
  | [] => []
  | target :: targets =>
    match advance target walked segments with
    | (s :: rest, walked) => pointAt s (target - walked) :: sample (s :: rest) walked targets
    | ([], _) => []

/-- `count` points at equal distances along a line through points; the line itself if it has that
    many. -/
def resample (points : List (Vec3 α)) (closed : Bool) (count : Nat) : List (Vec3 α) :=
  if points.length = count then points
  else
    let segments := steps closed points
    let perimeter : α := Scalar.sum (segments.map fun (p, q) => p.distance q)
    if perimeter ≤ 0.0 then (points.head?.map (List.replicate count)).getD []
    else
      -- The last part of a closed line leads back to its first point.
      let parts := if closed then count else count - 1
      let spacing := perimeter / Scalar.ofNat parts
      sample segments 0.0 ((List.range count).map fun k => spacing * Scalar.ofNat k)

/-- The mean of points. -/
def centroid (points : List (Vec3 α)) : Vec3 α :=
  Vec3.sum points / (Scalar.ofNat points.length : α)

/-- The direction from one ring's center to the next, or the normal of the next for rings around
    one center. -/
def direction (near far : List (Vec3 α)) : Vec3 α :=
  let step := (centroid far - centroid near).normalizeOrZero
  if step == .zero then (Path.polyline far).faceNormal else step

end Sweep

/-- The tube through profiles in order. -/
def Path.loft (profiles : List (Path α)) : Mesh α :=
  let usable := profiles.filterMap Path.ring?
  let closed := usable.all (·.2)
  let width := (usable.map (·.1.length)).foldl max 0
  let rings := usable.map fun (points, _) => Sweep.resample points closed width
  let pairs := steps false rings
  match pairs.head?, pairs.getLast? with
  | some (r₀, r₁), some (r₂, r₃) =>
    Sweep.stitch rings closed
      (if closed then .capped (Sweep.direction r₀ r₁) (Sweep.direction r₂ r₃) else .bare)
  | _, _ => .empty

end Solids
