import Solids.Build

/-!
# Scenes

A scene is a list of root parts and a background color, with the cameras and lights found among
the parts. These *marks* are copies of the parts, each in the place that it has in the world.
-/

namespace Solids

/-- Root parts with the marks found below them. -/
structure Scene (α : Type) where
  background : Option Color := none
  roots : List (Node α) := []
  /-- The cameras with their place in the world. -/
  cameras : List (Node α) := []
  /-- The lights with their place in the world. -/
  lights : List (Node α) := []

variable {α ω : Type} [Scalar α]

namespace Node

mutual

/-- The parts from this one down, each with its place in the world, where `outer` is the place of
    the part above. -/
def placed (outer : Transform α) : Node α → List (Node α × Transform α)
  | n@{ children, transform, .. } =>
    let world := outer.followedBy transform
    (n, world) :: placedAll world children

/-- A list of parts and those below, each with its place in the world. -/
def placedAll (outer : Transform α) : List (Node α) → List (Node α × Transform α)
  | [] => []
  | n :: ns => n.placed outer ++ placedAll outer ns

end

end Node

/-- The kind marks a camera. -/
def Kind.isCamera : Kind α → Bool
  | .camera _ => true
  | _ => false

/-- The kind marks a light. -/
def Kind.isLight : Kind α → Bool
  | .light _ => true
  | _ => false

namespace Scene

/-- The scene of root parts. -/
def new [KeyDigest] (background : Option Color) (roots : List (Node α)) : Scene α :=
  let parts := Node.placedAll .identity roots
  -- The place is part of the key, so a mark moved by its surroundings has a key of its own.
  let marks (marked : Kind α → Bool) : List (Node α) :=
    (parts.filter fun p => marked p.1.kind).map fun p => p.1.withTransform p.2
  { background
    roots
    cameras := marks Kind.isCamera
    lights := marks Kind.isLight }

/-- Builds the roots in order, asking the probe before each. -/
def build (probe : Nat → Bool) (scene : Scene α) (s : Site α ω) :
    Except Fault (Bool × Scene α × Site α ω) := do
  let (done, roots, s) ← Node.buildAll probe scene.roots s
  return (done, { scene with roots }, s)

/-- All roots are built. -/
def isBuilt (scene : Scene α) : Bool := scene.roots.all Node.isBuilt

/-- The box of all roots in the world. -/
def bounds (scene : Scene α) : Bounds α := Node.unionBounds .empty scene.roots

/-- The number of polygons drawn, as far as parts are built. -/
def polygonCount (scene : Scene α) : Nat := Node.polygonCountAll scene.roots

/-- The first part of a name. -/
def find? (scene : Scene α) (name : String) : Option (Node α) := Node.findAll? name scene.roots

/-- All polygons drawn, as far as parts are built, as one mesh in the world. -/
def merged (scene : Scene α) : Except Fault (Mesh α) := Node.mergeFlattened .empty scene.roots

end Scene

end Solids
