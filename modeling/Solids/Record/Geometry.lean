import Solids.Kind.Basic
import Solids.Record.Json
import Solids.Transform

/-!
# Records of geometry

How points, paths, meshes, materials, transforms and kinds are read from records and written to
them. A reader answers nothing where a record is refused: where a required field is missing, a
value is of the wrong shape, or a count is no integer in range.
-/

namespace Solids

open Json

/-! ## Points, paths and meshes -/

namespace Vec3

/-- A vector from its three components. -/
def ofJson? (j : Json) : Option (Vec3 Float) :=
  match toList? toReal? j with
  | some [x, y, z] => some ⟨x, y, z⟩
  | _ => none

/-- The three components. -/
def toJson (v : Vec3 Float) : Json := .list (v.toList.map ofReal)

end Vec3

namespace Rotation

/-- A rotation from its four components. -/
def ofJson? (j : Json) : Option (Rotation Float) :=
  match toList? toReal? j with
  | some [x, y, z, w] => some ⟨x, y, z, w⟩
  | _ => none

/-- The four components. -/
def toJson (q : Rotation Float) : Json := .list (q.toList.map ofReal)

end Rotation

namespace Waypoint

/-- The fields of a point of a path. -/
def fields : List String := ["position", "is_curved"]

/-- A point of a path, which is passed through unless it is said to be curved. -/
def ofJson? (j : Json) : Option (Waypoint Float) := do
  guard (j.isRecord fields)
  let position ← j.required fields "position" Vec3.ofJson?
  let curved ← j.defaulted fields "is_curved" false toBool?
  return { position, curved }

/-- The record of a point of a path. -/
def toJson (p : Waypoint Float) : Json :=
  .object [("position", p.position.toJson), ("is_curved", .bool p.curved)]

end Waypoint

namespace Path

/-- A path from its points. -/
def ofJson? (j : Json) : Option (Path Float) :=
  (toList? Waypoint.ofJson? j).map Path.mk

/-- The points of a path. -/
def toJson (p : Path Float) : Json := .list (p.points.map Waypoint.toJson)

/-- A list of paths. -/
def listOfJson? : Json → Option (List (Path Float)) := toList? ofJson?

/-- A list of paths. -/
def listToJson (ps : List (Path Float)) : Json := .list (ps.map toJson)

end Path

namespace Triangle

/-- A triangle from its three indices. -/
def ofJson? (j : Json) : Option (Triangle UInt32) :=
  match toList? toUInt32? j with
  | some [a, b, c] => some ⟨a, b, c⟩
  | _ => none

/-- The three indices. -/
def toJson (t : Triangle UInt32) : Json := .list (t.toList.map ofUInt32)

end Triangle

namespace Rgba

/-- A vertex color from its four components in single precision. -/
def ofJson? (j : Json) : Option Rgba :=
  match toList? toReal32? j with
  | some [r, g, b, a] => some ⟨r, g, b, a⟩
  | _ => none

/-- The four components. -/
def toJson (c : Rgba) : Json := .list (c.toList.map fun x => ofReal (Binary.widen x))

end Rgba

namespace Mesh

/-- The fields of a mesh. -/
def fields : List String := ["vertices", "triangles", "colors"]

/-- A mesh as it was written down, whether its parts fit together or not. -/
def ofJson? (j : Json) : Option (Mesh Float) := do
  guard (j.isRecord fields)
  let vertices ← j.required fields "vertices" (toList? Vec3.ofJson?)
  let triangles ← j.required fields "triangles" (toList? Triangle.ofJson?)
  let colors ← j.optional fields "colors" (toList? Rgba.ofJson?)
  return { vertices := vertices.toArray, triangles, colors := colors.map List.toArray }

/-- The record of a mesh, without colors where nothing was painted. -/
def toJson (m : Mesh Float) : Json :=
  .object ([("vertices", .list (m.vertices.toList.map Vec3.toJson)),
      ("triangles", .list (m.triangles.map Triangle.toJson))]
    ++ fieldIfSome "colors" (fun c : Array Rgba => .list (c.toList.map Rgba.toJson)) m.colors)

end Mesh

/-! ## Materials -/

namespace Color

/-- The fields of a color. -/
def fields : List String := ["r", "g", "b", "a"]

/-- A color, which lets nothing through unless it has an alpha. -/
def ofJson? (j : Json) : Option Color := do
  guard (j.isRecord fields)
  let r ← j.required fields "r" toReal?
  let g ← j.required fields "g" toReal?
  let b ← j.required fields "b" toReal?
  let a ← j.defaulted fields "a" 1.0 toReal?
  return { r, g, b, a }

/-- The record of a color. -/
def toJson (c : Color) : Json :=
  .object [("r", ofReal c.r), ("g", ofReal c.g), ("b", ofReal c.b), ("a", ofReal c.a)]

end Color

namespace Texture

/-- The fields of an image. -/
def fields : List String := ["name", "intensity"]

/-- An image, shown in full unless it has an intensity. -/
def ofJson? (j : Json) : Option Texture := do
  guard (j.isRecord fields)
  let name ← j.required fields "name" toText?
  let intensity ← j.defaulted fields "intensity" 1.0 toReal?
  return { name, intensity }

/-- The record of an image. -/
def toJson (t : Texture) : Json :=
  .object [("name", .text t.name), ("intensity", ofReal t.intensity)]

end Texture

namespace Diffuse

/-- An object with one field, whose name says what the value is. -/
def ofJson? : Json → Option Diffuse
  | .object [("color", j)] => (Color.ofJson? j).map color
  | .object [("texture", j)] => (Texture.ofJson? j).map texture
  | _ => none

/-- An object with one field, named for what the surface shows. -/
def toJson : Diffuse → Json
  | color c => .object [("color", c.toJson)]
  | texture t => .object [("texture", t.toJson)]

end Diffuse

namespace Material

/-- The fields of a material. -/
def fields : List String := ["opacity", "diffuse"]

/-- A material, which hides what is behind it unless it has an opacity. -/
def ofJson? (j : Json) : Option Material := do
  guard (j.isRecord fields)
  let opacity ← j.defaulted fields "opacity" 1.0 toReal?
  let diffuse ← j.optional fields "diffuse" Diffuse.ofJson?
  return { opacity, diffuse }

/-- The record of a material. -/
def toJson (m : Material) : Json :=
  .object [("opacity", ofReal m.opacity), ("diffuse", ofOption Diffuse.toJson m.diffuse)]

end Material

/-! ## Transforms -/

namespace Transform

/-- The fields of a place. -/
def fields : List String := ["offset", "rotation", "scale"]

/-- A place; what is missing does not move, turn or scale. -/
def ofJson? (j : Json) : Option (Transform Float) := do
  guard (j.isRecord fields)
  let offset ← j.defaulted fields "offset" .zero Vec3.ofJson?
  let rotation ← j.defaulted fields "rotation" .identity Rotation.ofJson?
  let scale ← j.defaulted fields "scale" .one Vec3.ofJson?
  return { offset, rotation, scale }

/-- The record of a place. -/
def toJson (t : Transform Float) : Json :=
  .object [("offset", t.offset.toJson), ("rotation", t.rotation.toJson),
    ("scale", t.scale.toJson)]

end Transform

/-! ## Kinds -/

namespace Alignment

/-- The name of an alignment. -/
def name : Alignment → String
  | follow => "default"
  | axis => "axis"
  | tangent => "tangent"

/-- The alignment of a name. -/
def ofName? : String → Option Alignment
  | "default" => some follow
  | "axis" => some axis
  | "tangent" => some tangent
  | _ => none

/-- The name, or an object with the name as its one field and nothing as its value. -/
def ofJson? : Json → Option Alignment
  | .text s | .object [(s, .null)] => ofName? s
  | _ => none

/-- An alignment among the options of a kind, where an empty object is nothing too. -/
def ofOptionJson? : Json → Option Alignment
  | .object [(s, .object [])] => ofName? s
  | j => ofJson? j

/-- The name as a record. -/
def toJson (a : Alignment) : Json := .text a.name

end Alignment

namespace Extrusion

/-- The fields of an extrusion. -/
def fields : List String := ["along", "twist", "align"]

/-- Profiles swept straight. -/
def straight : Extrusion Float := { twist := 0.0 }

/-- How profiles are extruded: straight and without a twist unless it is said otherwise. -/
def ofJson? (j : Json) : Option (Extrusion Float) := do
  guard (j.isRecord fields)
  let along ← j.defaulted fields "along" [] Path.listOfJson?
  let twist ← j.defaulted fields "twist" 0.0 toReal?
  let align ← j.defaulted fields "align" .follow Alignment.ofOptionJson?
  return { along, twist, align }

/-- The record of an extrusion. -/
def toJson (e : Extrusion Float) : Json :=
  .object [("along", Path.listToJson e.along), ("twist", ofReal e.twist),
    ("align", e.align.toJson)]

end Extrusion

namespace Camera

/-- The fields of a camera, after the one that names its kind. -/
def fields : List String := ["kind", "fov", "width", "height"]

/-- A camera, each number of which may be missing. -/
def ofJson? (j : Json) : Option Camera := do
  guard (j.isRecord fields)
  let fov ← j.optional fields "fov" toReal?
  let width ← j.optional fields "width" toReal?
  let height ← j.optional fields "height" toReal?
  return { fov, width, height }

/-- The fields of a camera beside its kind. -/
def toFields (c : Camera) : List (String × Json) :=
  [("fov", ofOption ofReal c.fov), ("width", ofOption ofReal c.width),
    ("height", ofOption ofReal c.height)]

end Camera

namespace Light

/-- The fields of a light, after the one that names its kind. -/
def fields : List String := ["kind", "color", "spread", "penumbra"]

/-- A light, white and to all sides unless it is said otherwise. -/
def ofJson? (j : Json) : Option Light := do
  guard (j.isRecord fields)
  let color ← j.defaulted fields "color" .white Color.ofJson?
  let spread ← j.defaulted fields "spread" 0.0 toReal?
  let penumbra ← j.defaulted fields "penumbra" 0.0 toReal?
  return { color, spread, penumbra }

/-- The fields of a light beside its kind. -/
def toFields (l : Light) : List (String × Json) :=
  [("color", l.color.toJson), ("spread", ofReal l.spread), ("penumbra", ofReal l.penumbra)]

end Light

namespace Kind

/-- The segments of a round shape. -/
def segmentsOfJson? (names : List String) (j : Json) : Option UInt32 :=
  j.defaulted names "segments" defaultSegments toUInt32?

/-- The paths of a shape made from profiles. -/
def pathsOfJson? (names : List String) (j : Json) : Option (List (Path Float)) :=
  j.required names "paths" Path.listOfJson?

/-- A kind without parameters, in a record of which nothing but the name is read. -/
def bare (kind : Kind Float) (j : Json) : Option (Kind Float) := do
  guard (j.isRecord ["kind"])
  return kind

/-- A round shape in a number of segments. -/
def round (make : UInt32 → Kind Float) (j : Json) : Option (Kind Float) := do
  let names := ["kind", "segments"]
  guard (j.isRecord names)
  return make (← segmentsOfJson? names j)

/-- A kind of the given name. -/
def ofNamedJson? (name : String) (j : Json) : Option (Kind Float) :=
  match name with
  | "group" => bare group j
  | "cube" => bare cube j
  | "union" => bare (combination .union) j
  | "difference" => bare (combination .difference) j
  | "intersection" => bare (combination .intersection) j
  | "xor" => bare (combination .xor) j
  | "stencil" => bare (combination .stencil) j
  | "cone" => round cone j
  | "cylinder" => round cylinder j
  | "sphere" => round sphere j
  | "extrude" => do
    let names := ["kind", "paths", "options"]
    guard (j.isRecord names)
    let paths ← pathsOfJson? names j
    let options ← j.defaulted names "options" .straight Extrusion.ofJson?
    return extrude paths options
  | "lathe" => do
    let names := ["kind", "paths", "segments"]
    guard (j.isRecord names)
    let paths ← pathsOfJson? names j
    return lathe paths (← segmentsOfJson? names j)
  | "loft" => do
    let names := ["kind", "paths"]
    guard (j.isRecord names)
    return loft (← pathsOfJson? names j)
  | "fill" => do
    let names := ["kind", "paths"]
    guard (j.isRecord names)
    return fill (← pathsOfJson? names j)
  | "hull" => do
    let names := ["kind", "points"]
    guard (j.isRecord names)
    return hull (← j.defaulted names "points" [] (toList? Vec3.ofJson?))
  | "path" => do
    let names := ["kind", "path"]
    guard (j.isRecord names)
    return path (← j.required names "path" Path.ofJson?)
  | "mesh" => do
    let names := ["kind", "mesh"]
    guard (j.isRecord names)
    return mesh (← j.required names "mesh" Mesh.ofJson?)
  | "camera" => (Camera.ofJson? j).map camera
  | "light" => (Light.ofJson? j).map light
  | _ => none

/-- A kind by the name in its first field. -/
def ofJson? (j : Json) : Option (Kind Float) := do
  let name ← j.required ["kind"] "kind" toText?
  ofNamedJson? name j

/-- The parameters of a kind. -/
def toFields : Kind Float → List (String × Json)
  | group | cube | combination _ => []
  | cone n | cylinder n | sphere n => [("segments", ofUInt32 n)]
  | extrude paths options =>
    [("paths", Path.listToJson paths), ("options", options.toJson)]
  | lathe paths n => [("paths", Path.listToJson paths), ("segments", ofUInt32 n)]
  | loft paths | fill paths => [("paths", Path.listToJson paths)]
  | hull points => [("points", .list (points.map Vec3.toJson))]
  | path p => [("path", p.toJson)]
  | mesh m => [("mesh", m.toJson)]
  | camera c => c.toFields
  | light l => l.toFields

/-- The record of a kind: its name, and its parameters. -/
def toJson (kind : Kind Float) : Json :=
  .object (("kind", .text kind.name) :: kind.toFields)

end Kind

end Solids
