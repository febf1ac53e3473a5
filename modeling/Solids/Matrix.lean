import Solids.Rotation

/-!
# Matrices

The matrices of affine maps of space, as four columns of four numbers: the images of the axes and
of the origin. `Matrix.compose` builds one from a scale, a rotation and an offset, applied in this
order, and `Matrix.decompose` takes one apart again. What a scale, a rotation and an offset cannot
express, such as a shear, is lost there.
-/

namespace Solids

/-- A column of a matrix. -/
structure Column (α : Type) where
  x : α
  y : α
  z : α
  w : α

namespace Column

variable {α : Type} [Scalar α]

instance : Add (Column α) := ⟨fun a b => ⟨a.x + b.x, a.y + b.y, a.z + b.z, a.w + b.w⟩⟩

instance : HMul (Column α) α (Column α) := ⟨fun a s => ⟨a.x * s, a.y * s, a.z * s, a.w * s⟩⟩

/-- The length of the column as a vector of four numbers. -/
def length (a : Column α) : α :=
  Scalar.sqrt (((a.x * a.x + a.y * a.y) + a.z * a.z) + a.w * a.w)

/-- The first three components. -/
def xyz (a : Column α) : Vec3 α :=
  ⟨a.x, a.y, a.z⟩

/-- The four numbers, in order. -/
def toList (a : Column α) : List α :=
  [a.x, a.y, a.z, a.w]

end Column

/-- A matrix by its columns: the images of the three axes and of the origin. -/
structure Matrix (α : Type) where
  axisX : Column α
  axisY : Column α
  axisZ : Column α
  origin : Column α

namespace Matrix

variable {α : Type} [Scalar α]

/-- The matrix of the map that moves nothing. -/
def identity : Matrix α :=
  ⟨⟨1.0, 0.0, 0.0, 0.0⟩, ⟨0.0, 1.0, 0.0, 0.0⟩, ⟨0.0, 0.0, 1.0, 0.0⟩, ⟨0.0, 0.0, 0.0, 1.0⟩⟩

/-- The image of a point, without a division by the last component. -/
def apply (m : Matrix α) (p : Vec3 α) : Vec3 α :=
  (m.origin + (m.axisZ * p.z + (m.axisY * p.y + m.axisX * p.x))).xyz

/-- The image of a column. -/
def applyColumn (m : Matrix α) (c : Column α) : Column α :=
  ((m.axisX * c.x + m.axisY * c.y) + m.axisZ * c.z) + m.origin * c.w

instance : Mul (Matrix α) where
  mul m n := ⟨m.applyColumn n.axisX, m.applyColumn n.axisY, m.applyColumn n.axisZ,
    m.applyColumn n.origin⟩

/-- The determinant of all four columns, by the components of the first one's row. -/
def determinant (m : Matrix α) : α :=
  -- The minors of the last two columns, each named for its two rows.
  let (a, b, c, d) := (m.axisX, m.axisY, m.axisZ, m.origin)
  let zw23 := c.z * d.w - c.w * d.z
  let yw23 := c.y * d.w - c.w * d.y
  let yz23 := c.y * d.z - c.z * d.y
  let xw23 := c.x * d.w - c.w * d.x
  let xz23 := c.x * d.z - c.z * d.x
  let xy23 := c.x * d.y - c.y * d.x
  a.x * (b.y * zw23 - b.z * yw23 + b.w * yz23)
    - a.y * (b.x * zw23 - b.z * xw23 + b.w * xz23)
    + a.z * (b.x * yw23 - b.y * xw23 + b.w * xy23)
    - a.w * (b.x * yz23 - b.y * xz23 + b.z * xy23)

/-- A matrix that mirrors turns the outside of a solid inward. -/
def isMirror (m : Matrix α) : Bool :=
  m.determinant < 0.0

/-- First scale, then rotate, then move. -/
def compose (scale : Vec3 α) (rotation : Rotation α) (offset : Vec3 α) : Matrix α :=
  let (x, y, z, w) := (rotation.x, rotation.y, rotation.z, rotation.w)
  let (x2, y2, z2) := (x + x, y + y, z + z)
  let (xx, xy, xz) := (x * x2, x * y2, x * z2)
  let (yy, yz, zz) := (y * y2, y * z2, z * z2)
  let (wx, wy, wz) := (w * x2, w * y2, w * z2)
  ⟨(⟨1.0 - (yy + zz), xy + wz, xz - wy, 0.0⟩ : Column α) * scale.x,
   (⟨xy - wz, 1.0 - (xx + zz), yz + wx, 0.0⟩ : Column α) * scale.y,
   (⟨xz + wy, yz - wx, 1.0 - (xx + yy), 0.0⟩ : Column α) * scale.z,
   ⟨offset.x, offset.y, offset.z, 1.0⟩⟩

/-- The rotation that takes the three axes to three unit vectors at right angles. Of the four
    components the one of greatest magnitude is found first, and the others through it. -/
def rotationOfAxes (a b c : Vec3 α) : Rotation α :=
  if c.z ≤ 0.0 then
    let d := b.y - a.x
    let o := 1.0 - c.z
    if d ≤ 0.0 then
      let f := o - d
      let i := 0.5 / Scalar.sqrt f
      ⟨f * i, (a.y + b.x) * i, (a.z + c.x) * i, (b.z - c.y) * i⟩
    else
      let f := o + d
      let i := 0.5 / Scalar.sqrt f
      ⟨(a.y + b.x) * i, f * i, (b.z + c.y) * i, (c.x - a.z) * i⟩
  else
    let s := b.y + a.x
    let o := 1.0 + c.z
    if s ≤ 0.0 then
      let f := o - s
      let i := 0.5 / Scalar.sqrt f
      ⟨(a.z + c.x) * i, (b.z + c.y) * i, f * i, (a.y - b.x) * i⟩
    else
      let f := o + s
      let i := 0.5 / Scalar.sqrt f
      ⟨(b.z - c.y) * i, (c.x - a.z) * i, (a.y - b.x) * i, f * i⟩

/-- Scale, rotation and offset of a matrix. The lengths of the columns are the scale, with the
    sign of the determinant on the first. -/
def decompose (m : Matrix α) : Vec3 α × Rotation α × Vec3 α :=
  -- Which axis a mirror turned around cannot be told; the first is taken.
  let sx := m.axisX.length * Scalar.signum m.determinant
  let sy := m.axisY.length
  let sz := m.axisZ.length
  (⟨sx, sy, sz⟩,
   rotationOfAxes (m.axisX.xyz * (1.0 / sx)) (m.axisY.xyz * (1.0 / sy)) (m.axisZ.xyz * (1.0 / sz)),
   m.origin.xyz)

/-- The sixteen numbers, column after column. -/
def toList (m : Matrix α) : List α :=
  m.axisX.toList ++ m.axisY.toList ++ m.axisZ.toList ++ m.origin.toList

end Matrix

end Solids
