import Solids.Tolerance

/-!
# Vectors

Points and directions of the plane (`Vec2`) and of space (`Vec3`), with `+`, `-`, the products and
quotients by a number, and the usual products. Sums run over the components in order, `x` first.
-/

namespace Solids

/-- A point or direction of the plane. -/
structure Vec2 (α : Type) where
  x : α
  y : α
  deriving BEq

/-- A point or direction of space. -/
structure Vec3 (α : Type) where
  x : α
  y : α
  z : α
  deriving BEq

variable {α : Type} [Scalar α]

namespace Vec2

instance : Sub (Vec2 α) := ⟨fun a b => ⟨a.x - b.x, a.y - b.y⟩⟩

/-- Twice the signed area of the triangle spanned by two vectors. -/
def perp (a b : Vec2 α) : α :=
  a.x * b.y - a.y * b.x

end Vec2

namespace Vec3

/-- The vector with three equal components. -/
def splat (s : α) : Vec3 α := ⟨s, s, s⟩

/-- The origin. -/
def zero : Vec3 α := ⟨0.0, 0.0, 0.0⟩

/-- The vector of three ones. -/
def one : Vec3 α := ⟨1.0, 1.0, 1.0⟩

/-- The third axis. -/
def unitZ : Vec3 α := ⟨0.0, 0.0, 1.0⟩

instance : Add (Vec3 α) := ⟨fun a b => ⟨a.x + b.x, a.y + b.y, a.z + b.z⟩⟩

instance : Sub (Vec3 α) := ⟨fun a b => ⟨a.x - b.x, a.y - b.y, a.z - b.z⟩⟩

instance : Neg (Vec3 α) := ⟨fun a => ⟨-a.x, -a.y, -a.z⟩⟩

instance : HMul (Vec3 α) α (Vec3 α) := ⟨fun a s => ⟨a.x * s, a.y * s, a.z * s⟩⟩

instance : HDiv (Vec3 α) α (Vec3 α) := ⟨fun a s => ⟨a.x / s, a.y / s, a.z / s⟩⟩

/-- The sum of the products of the components. -/
def dot (a b : Vec3 α) : α :=
  (a.x * b.x + a.y * b.y) + a.z * b.z

/-- A vector at right angles to both, as long as the area of their parallelogram. -/
def cross (a b : Vec3 α) : Vec3 α :=
  ⟨a.y * b.z - b.y * a.z, a.z * b.x - b.z * a.x, a.x * b.y - b.x * a.y⟩

/-- The square of the length. -/
def lengthSq (a : Vec3 α) : α :=
  a.dot a

/-- The distance from the origin. -/
def length (a : Vec3 α) : α :=
  Scalar.sqrt (a.dot a)

/-- The square of the distance of two points. -/
def distanceSq (a b : Vec3 α) : α :=
  (a - b).lengthSq

/-- The distance of two points. -/
def distance (a b : Vec3 α) : α :=
  (a - b).length

/-- The point a share `s` of the way from `a` to `b`. -/
def lerp (a b : Vec3 α) (s : α) : Vec3 α :=
  a + (b - a) * s

/-- The vector scaled to length one; without meaning for a vector without length. -/
def normalize (a : Vec3 α) : Vec3 α :=
  a * (1.0 / a.length)

/-- The vector scaled to length one, and zero for a vector that has no usable length. -/
def normalizeOrZero (a : Vec3 α) : Vec3 α :=
  let r := 1.0 / a.length
  if Scalar.isFinite r ∧ 0.0 < r then a * r else zero

/-- The lesser of each component. -/
def lesser (a b : Vec3 α) : Vec3 α :=
  ⟨Scalar.lesser a.x b.x, Scalar.lesser a.y b.y, Scalar.lesser a.z b.z⟩

/-- The greater of each component. -/
def greater (a b : Vec3 α) : Vec3 α :=
  ⟨Scalar.greater a.x b.x, Scalar.greater a.y b.y, Scalar.greater a.z b.z⟩

/-- The magnitude of each component. -/
def abs (a : Vec3 α) : Vec3 α :=
  ⟨Scalar.abs a.x, Scalar.abs a.y, Scalar.abs a.z⟩

/-- The greatest component. -/
def greatest (a : Vec3 α) : α :=
  Scalar.greater a.x (Scalar.greater a.y a.z)

/-- The sum of a list of vectors, from left to right. -/
def sum (vs : List (Vec3 α)) : Vec3 α :=
  vs.foldl (· + ·) zero

/-- A unit vector at right angles to a unit vector. -/
def orthonormal (n : Vec3 α) : Vec3 α :=
  -- With the sign of `n.z` on it, `s` cannot cancel `n.z` below.
  let s := Scalar.copySign 1.0 n.z
  let a := -1.0 / (s + n.z)
  ⟨n.x * n.y * a, s + n.y * n.y * a, -n.y⟩

/-- The three components, in order. -/
def toList (a : Vec3 α) : List α :=
  [a.x, a.y, a.z]

end Vec3

end Solids
