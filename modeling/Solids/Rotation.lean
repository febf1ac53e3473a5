import Solids.Vector

/-!
# Rotations

Rotations of space as quaternions `x i + y j + z k + w`. They are kept as they are given: a
quaternion that is not of length one also scales what it turns.
-/

namespace Solids

/-- A rotation of space, as a quaternion. -/
structure Rotation (α : Type) where
  x : α
  y : α
  z : α
  w : α
  deriving BEq

namespace Rotation

variable {α : Type} [Scalar α]

/-- The rotation that turns nothing. -/
def identity : Rotation α := ⟨0.0, 0.0, 0.0, 1.0⟩

/-- The turn by an angle around an axis of length one. -/
def aroundAxis (axis : Vec3 α) (angle : α) : Rotation α :=
  let s := Scalar.sin (angle * 0.5)
  ⟨axis.x * s, axis.y * s, axis.z * s, Scalar.cos (angle * 0.5)⟩

/-- The turn by an angle around the vertical axis. -/
def aroundY (angle : α) : Rotation α :=
  ⟨0.0, Scalar.sin (angle * 0.5), 0.0, Scalar.cos (angle * 0.5)⟩

/-- How close to `1` or `-1` the cosine of two directions counts as parallel. -/
def parallelCosine : α := 1.0 - 2.0 * 2.220446049250313e-16

/-- The shortest turn that takes one unit vector to another; a half turn around any axis at right
    angles where they are opposite. -/
def arc (source target : Vec3 α) : Rotation α :=
  let d := source.dot target
  if parallelCosine < d then identity
  else if d < -parallelCosine then aroundAxis source.orthonormal Scalar.pi
  else
    -- For an angle `t`, `(sin t, 1 + cos t)` points the same way as `(sin (t / 2), cos (t / 2))`.
    let c := source.cross target
    let w := 1.0 + d
    let r := 1.0 / Scalar.sqrt (((c.x * c.x + c.y * c.y) + c.z * c.z) + w * w)
    ⟨c.x * r, c.y * r, c.z * r, w * r⟩

/-- The product of quaternions: `r` first, then `q`. -/
def mul (q r : Rotation α) : Rotation α :=
  ⟨q.w * r.x + q.x * r.w + q.y * r.z - q.z * r.y,
   q.w * r.y - q.x * r.z + q.y * r.w + q.z * r.x,
   q.w * r.z + q.x * r.y - q.y * r.x + q.z * r.w,
   q.w * r.w - q.x * r.x - q.y * r.y - q.z * r.z⟩

instance : Mul (Rotation α) := ⟨mul⟩

/-- The vector part of the quaternion. -/
def axis (q : Rotation α) : Vec3 α :=
  ⟨q.x, q.y, q.z⟩

/-- The image of a point. -/
def apply (q : Rotation α) (v : Vec3 α) : Vec3 α :=
  let b := q.axis
  (v * (q.w * q.w - b.dot b) + b * (v.dot b * 2.0)) + b.cross v * (q.w * 2.0)

/-- The four components, in order. -/
def toList (q : Rotation α) : List α :=
  [q.x, q.y, q.z, q.w]

end Rotation

end Solids
