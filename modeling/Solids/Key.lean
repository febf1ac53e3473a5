import Solids.Kind.Basic
import Solids.Transform

/-!
# Keys

The key of a part stands for all that its mesh follows from: its kind, its material, its transform
and the keys of its children. It is the digest of the bytes that these are written in
(`CacheKey.fed`), so equal parts have equal keys wherever they are. Parts that differ have
different bytes, and different keys as long as the digest does not confuse them; which digest is
used (`KeyDigest`) is left open.

Numbers are written by their patterns, so that both zeros are one and all `NaN`s are one. Words have
eight bytes, the lowest first, and indices four. A list is written with its length in front, a text
with a byte after it that no text contains, and what may be missing with a mark.
-/

namespace Solids

/-! ## Bytes -/

/-- The bytes of a word, the lowest first. -/
def wordBytes (w : UInt64) : List UInt8 :=
  [w.toUInt8, (w >>> 8).toUInt8, (w >>> 16).toUInt8, (w >>> 24).toUInt8,
    (w >>> 32).toUInt8, (w >>> 40).toUInt8, (w >>> 48).toUInt8, (w >>> 56).toUInt8]

/-- The bytes of an index, the lowest first. -/
def indexBytes (i : UInt32) : List UInt8 :=
  [i.toUInt8, (i >>> 8).toUInt8, (i >>> 16).toUInt8, (i >>> 24).toUInt8]

/-- The bytes of a length, as a word. -/
def lengthBytes (n : Nat) : List UInt8 := wordBytes n.toUInt64

/-- The bytes of a truth value. -/
def boolBytes (b : Bool) : List UInt8 := [if b then 1 else 0]

/-- The bytes of a text, and one that is in no text. -/
def textBytes (s : String) : List UInt8 := s.toByteArray.data.toList ++ [0xff]

/-- The bytes of a list: its length, and the bytes of its elements. -/
def listBytes {β : Type} (bytes : β → List UInt8) (xs : List β) : List UInt8 :=
  lengthBytes xs.length ++ xs.flatMap bytes

/-- The bytes of what may be missing: a mark, and its bytes if it is there. -/
def optionBytes {β : Type} (bytes : β → List UInt8) : Option β → List UInt8
  | none => [0]
  | some x => 1 :: bytes x

/-! ## The bytes of a part -/

variable {α : Type} [Scalar α]

/-- The bytes of a number's pattern. -/
def Scalar.bytes (x : α) : List UInt8 := wordBytes (Scalar.bits x)

/-- The bytes of the components. -/
def Vec3.bytes (v : Vec3 α) : List UInt8 := v.toList.flatMap Scalar.bytes

/-- The bytes of the components. -/
def Rotation.bytes (q : Rotation α) : List UInt8 := q.toList.flatMap Scalar.bytes

/-- The bytes of the offset, the rotation and the scale. -/
def Transform.bytes (t : Transform α) : List UInt8 :=
  t.offset.bytes ++ t.rotation.bytes ++ t.scale.bytes

/-- The bytes of the position, and whether the path bends there. -/
def Waypoint.bytes (p : Waypoint α) : List UInt8 := p.position.bytes ++ boolBytes p.curved

/-- The bytes of the points. -/
def Path.bytes (p : Path α) : List UInt8 := listBytes Waypoint.bytes p.points

/-- The bytes of the three indices, as of a list. -/
def Triangle.bytes (t : Triangle UInt32) : List UInt8 := listBytes indexBytes t.toList

/-- The bytes of the components, widened to the precision of all other numbers. -/
def Rgba.bytes (c : Rgba) : List UInt8 := c.toList.flatMap fun x => Scalar.bytes (Binary.widen x)

/-- The bytes of the vertices, the triangles and the colors. -/
def Mesh.bytes (m : Mesh α) : List UInt8 :=
  listBytes Vec3.bytes m.vertices.toList ++ listBytes Triangle.bytes m.triangles
    ++ optionBytes (fun colors : Array Rgba => listBytes Rgba.bytes colors.toList) m.colors

/-- The word of an alignment. -/
def Alignment.word : Alignment → UInt64
  | .follow => 0
  | .axis => 1
  | .tangent => 2

/-- The bytes of the rails, the twist and the alignment. -/
def Extrusion.bytes (e : Extrusion α) : List UInt8 :=
  listBytes Path.bytes e.along ++ Scalar.bytes e.twist ++ wordBytes e.align.word

/-- The bytes of the three numbers, each of which may be missing. -/
def Camera.bytes (c : Camera) : List UInt8 :=
  optionBytes Scalar.bytes c.fov ++ optionBytes Scalar.bytes c.width
    ++ optionBytes Scalar.bytes c.height

/-- The bytes of four patterns, as of a list. -/
def patternBytes (r g b a : UInt64) : List UInt8 := listBytes wordBytes [r, g, b, a]

/-- The bytes of the components. -/
def Color.bytes (c : Color) : List UInt8 :=
  patternBytes (Scalar.bits c.r) (Scalar.bits c.g) (Scalar.bits c.b) (Scalar.bits c.a)

/-- The bytes of the color and of the cone. -/
def Light.bytes (l : Light) : List UInt8 :=
  l.color.bytes ++ Scalar.bytes l.spread ++ Scalar.bytes l.penumbra

/-- The bytes of what the surface shows: whether it shows anything, whether that is an image, and
    its parameters. -/
def Material.DiffuseIdentity.bytes : Material.DiffuseIdentity → List UInt8
  | .plain => wordBytes 0
  | .color r g b a => wordBytes 1 ++ wordBytes 0 ++ patternBytes r g b a
  | .texture name intensity =>
    wordBytes 1 ++ wordBytes 1 ++ textBytes name ++ wordBytes intensity

/-- The bytes of the opacity and of what the surface shows. -/
def Material.bytes (m : Material) : List UInt8 :=
  wordBytes m.identity.opacity ++ m.identity.diffuse.bytes

/-- The word of a kind. -/
def Kind.word : Kind α → UInt64
  | group => 0
  | cone _ => 1
  | cylinder _ => 2
  | sphere _ => 3
  | cube => 4
  | extrude _ _ => 5
  | lathe _ _ => 6
  | loft _ => 7
  | fill _ => 8
  | hull _ => 9
  | combination .union => 10
  | combination .difference => 11
  | combination .intersection => 12
  | combination .xor => 13
  | combination .stencil => 14
  | path _ => 15
  | mesh _ => 16
  | camera _ => 17
  | light _ => 18

/-- The bytes of a kind's parameters. -/
def Kind.parameterBytes : Kind α → List UInt8
  | group | cube | combination _ => []
  | cone n | cylinder n | sphere n => indexBytes n
  | extrude paths options => listBytes Path.bytes paths ++ options.bytes
  | lathe paths n => listBytes Path.bytes paths ++ indexBytes n
  | loft paths | fill paths => listBytes Path.bytes paths
  | hull points => listBytes Vec3.bytes points
  | path p => p.bytes
  | mesh m => m.bytes
  | camera c => c.bytes
  | light l => l.bytes

/-- The bytes of a kind: its word, and its parameters. -/
def Kind.bytes (kind : Kind α) : List UInt8 := wordBytes kind.word ++ kind.parameterBytes

/-! ## Keys -/

/-- How bytes are digested to a number. -/
class KeyDigest where
  /-- The number that stands for the bytes. -/
  digest : List UInt8 → UInt64

/-- The key of a part, or a number made up as a key. -/
structure CacheKey where
  number : UInt64
  deriving DecidableEq

namespace CacheKey

/-- The bytes of a key. -/
def bytes (k : CacheKey) : List UInt8 := wordBytes k.number

/-- The bytes that a part with the given children's keys is digested from. The number of children
    comes last. -/
def fed (kind : Kind α) (material : Material) (transform : Transform α)
    (children : List CacheKey) : List UInt8 :=
  kind.bytes ++ material.bytes ++ transform.bytes
    ++ (children.flatMap bytes ++ lengthBytes children.length)

/-- The key of a part with the given children's keys. -/
def compute [KeyDigest] (kind : Kind α) (material : Material) (transform : Transform α)
    (children : List CacheKey) : CacheKey :=
  ⟨KeyDigest.digest (fed kind material transform children)⟩

end CacheKey

namespace KeyDigest

/-- A word whose every bit depends on every bit of the given one. -/
def mix (z : UInt64) : UInt64 :=
  let z := (z ^^^ (z >>> 30)) * 0xbf58476d1ce4e5b9
  let z := (z ^^^ (z >>> 27)) * 0x94d049bb133111eb
  z ^^^ (z >>> 31)

/-- The digest that takes in one byte after another and mixes all bits each time. -/
@[reducible] def mixing : KeyDigest where
  digest bytes := bytes.foldl (fun h b => mix (h * 0x9e3779b97f4a7c15 + mix (b.toUInt64 + 1))) 0

end KeyDigest

end Solids
