import Solids.Mesh.Color
import Solids.Precision
import Solids.Tolerance

/-!
# Materials

The appearance of a part: a color or an image, and how much of what is behind shows through.

Materials are told apart by their numbers' patterns (`Material.identity`), so that both zeros are
one number and all `NaN`s are one. Two materials of one identity are `==`, and may stand for each
other as a key.
-/

namespace Solids

/-- A color with an alpha, each part from 0 to 1. -/
structure Color where
  r : Float
  g : Float
  b : Float
  a : Float := 1.0

/-- White, without any transparency. -/
def Color.white : Color := { r := 1.0, g := 1.0, b := 1.0 }

/-- The color as vertices carry it. -/
def Color.toRgba (c : Color) : Rgba :=
  ⟨Binary.narrow c.r, Binary.narrow c.g, Binary.narrow c.b, Binary.narrow c.a⟩

/-- An image laid on a surface. -/
structure Texture where
  name : String
  intensity : Float := 1.0

/-- What a surface looks like in plain light. -/
inductive Diffuse
  | color (c : Color)
  | texture (t : Texture)

/-- The appearance of a part. -/
structure Material where
  opacity : Float := 1.0
  diffuse : Option Diffuse := none

namespace Material

/-- The material of a part that was given none. -/
def default : Material := {}

/-- A plain color. -/
def ofColor (c : Color) : Material := { diffuse := some (.color c) }

/-- An image at full intensity. -/
def ofTexture (name : String) : Material := { diffuse := some (.texture { name }) }

/-- The material with another opacity. -/
def withOpacity (m : Material) (opacity : Float) : Material := { m with opacity }

/-- Nothing behind the surface shows through. An image may let light through by itself, so it is
    never taken to be opaque. -/
def isOpaque (m : Material) : Bool :=
  approxEqual m.opacity 1.0 && match m.diffuse with
    | none => true
    | some (.color c) => approxEqual c.a 1.0
    | some (.texture _) => false

/-- The surface has one color everywhere. -/
def isUniform (m : Material) : Bool :=
  match m.diffuse with
  | some (.texture _) => false
  | _ => true

/-- The color that stands for the material on a vertex: the unpainted one for an image. -/
def vertexColor (m : Material) : Rgba :=
  let c := match m.diffuse with
    | some (.color c) => c.toRgba
    | _ => .unpainted
  { c with a := c.a * Binary.narrow m.opacity }

/-! ## Identity -/

/-- The identity of a surface. -/
inductive DiffuseIdentity
  | plain
  | color (r g b a : UInt64)
  | texture (name : String) (intensity : UInt64)
  deriving DecidableEq

/-- What tells a material apart: its texts, and the patterns of its numbers. -/
structure Identity where
  opacity : UInt64
  diffuse : DiffuseIdentity
  deriving DecidableEq

/-- What tells the material apart. -/
def identity (m : Material) : Identity where
  opacity := Scalar.bits m.opacity
  diffuse := match m.diffuse with
    | none => .plain
    | some (.color c) =>
      .color (Scalar.bits c.r) (Scalar.bits c.g) (Scalar.bits c.b) (Scalar.bits c.a)
    | some (.texture t) => .texture t.name (Scalar.bits t.intensity)

instance : BEq Material := ⟨fun m n => decide (m.identity = n.identity)⟩

/-- Materials are `==` exactly if they have one identity. -/
theorem beq_iff {m n : Material} : (m == n) = true ↔ m.identity = n.identity :=
  decide_eq_true_iff

end Material

end Solids
