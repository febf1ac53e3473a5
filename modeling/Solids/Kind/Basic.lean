import Solids.Boolean
import Solids.Material
import Solids.Path
import Solids.Sweep.Extrude

/-!
# Kinds of parts

What a part of a model is (`Kind`): a group of others, a shape, a combination of its children, or
a mark for a camera or a light. Shapes have unit size; a part's transform gives it its own.

The questions that the builder asks of a kind are answered here: whether it has a mesh of its own
(`Kind.hasOwnMesh`), whether its children are drawn beside it or used up in that mesh
(`Kind.rendersChildren`), and whether it is empty whatever its children are (`Kind.isEmpty`).
-/

namespace Solids

/-- How profiles are extruded. -/
structure Extrusion (α : Type) where
  /-- The rails; without one, profiles are swept straight along their normals. -/
  along : List (Path α) := []
  /-- The turn around the profile's normal over a whole rail, in radians. -/
  twist : α
  align : Alignment := .follow

/-- A camera. -/
structure Camera where
  /-- The vertical field of view, in degrees. -/
  fov : Option Float := none
  width : Option Float := none
  height : Option Float := none

/-- A light. -/
structure Light where
  color : Color := .white
  /-- The angle of the cone in degrees, 0 for a light to all sides. -/
  spread : Float := 0.0
  /-- The softness of the cone's edge, from 0 to 1. -/
  penumbra : Float := 0.0

/-- What a part of a model is. -/
inductive Kind (α : Type)
  /-- Its children and nothing else. -/
  | group
  | cone (segments : UInt32)
  | cylinder (segments : UInt32)
  | sphere (segments : UInt32)
  | cube
  /-- Profiles swept along their normals or along rails. -/
  | extrude (paths : List (Path α)) (options : Extrusion α)
  /-- Profiles revolved around the vertical axis. -/
  | lathe (paths : List (Path α)) (segments : UInt32)
  /-- A tube through profiles. -/
  | loft (paths : List (Path α))
  /-- Closed profiles filled with flat surfaces. -/
  | fill (paths : List (Path α))
  /-- The convex hull of points and of the children. -/
  | hull (points : List (Vec3 α))
  /-- The children put together, from the first to the last. -/
  | combination (op : Boolean)
  /-- A path, drawn as a line. -/
  | path (path : Path α)
  /-- A mesh that was written down. -/
  | mesh (mesh : Mesh α)
  | camera (camera : Camera)
  | light (light : Light)

/-- The segments of a round shape that was given none. -/
def defaultSegments : UInt32 := 16

/-- The short name of an operation. -/
def Boolean.name : Boolean → String
  | .union => "union"
  | .difference => "difference"
  | .intersection => "intersection"
  | .xor => "xor"
  | .stencil => "stencil"

namespace Kind

variable {α : Type}

/-- The short name of a kind. -/
def name : Kind α → String
  | group => "group"
  | cone _ => "cone"
  | cylinder _ => "cylinder"
  | sphere _ => "sphere"
  | cube => "cube"
  | extrude _ _ => "extrude"
  | lathe _ _ => "lathe"
  | loft _ => "loft"
  | fill _ => "fill"
  | hull _ => "hull"
  | combination op => op.name
  | path _ => "path"
  | mesh _ => "mesh"
  | camera _ => "camera"
  | light _ => "light"

/-- The children are put together by an operation. -/
def isCombination : Kind α → Bool
  | combination _ => true
  | _ => false

/-- The children are drawn beside the part, and not used up in its own mesh. -/
def rendersChildren : Kind α → Bool
  | combination _ | hull _ => false
  | _ => true

/-- The part has a mesh of its own. A path is drawn as a line and has none. -/
def hasOwnMesh : Kind α → Bool
  | group | path _ | camera _ | light _ => false
  | _ => true

variable [Scalar α]

/-- No path is a line. -/
def noLine (paths : List (Path α)) : Bool := paths.all (·.isEmpty)

/-- The kind by itself describes no geometry. Groups, combinations and marks never do; what was
    written down does not if it is too small. -/
def isEmpty : Kind α → Bool
  | group | combination _ | camera _ | light _ => true
  | cone _ | cylinder _ | sphere _ | cube => false
  | extrude paths options => noLine paths || (!options.along.isEmpty && noLine options.along)
  | lathe paths _ | loft paths | fill paths => noLine paths
  | hull points => points.length < 4
  | path p => p.isEmpty
  | mesh m => m.isEmpty

/-- The mesh follows from the kind alone, without its children. -/
def isLeaf : Kind α → Bool
  | cone _ | cylinder _ | sphere _ | cube | path _ | mesh _ => true
  | kind@(extrude _ _) | kind@(lathe _ _) | kind@(loft _) | kind@(fill _) => !kind.isEmpty
  | group | hull _ | combination _ | camera _ | light _ => false

end Kind

end Solids
