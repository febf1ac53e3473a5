import Solids.Cache
import Solids.Kind.Extent

/-!
# Parts

A model is a tree of parts (`Node`): each is of a kind, stands in a place, has a material and owns
its children. Its key is computed when it is made, from its own parameters and its children's
keys, and so is there before anything is built.

A part is built or not (`BuildState`); one that is built has its own mesh if its kind has one. A
change of what a key follows from makes the part unbuilt again, unless the key stays the same
(`Node.rekey`).
-/

namespace Solids

/-- The place of a part in a source text, in bytes. One that was read from a record may end before
    it starts, and then holds no text. -/
structure Span where
  start : UInt64
  stop : UInt64
  deriving DecidableEq

namespace Span

/-- The place between two positions in order. -/
def between (start stop : UInt64) : Except Fault Span :=
  if start ≤ stop then .ok { start, stop } else .error (.reversedSpan start stop)

/-- The length in bytes, zero for a reversed span. -/
def length (s : Span) : Nat := s.stop.toNat - s.start.toNat

/-- The span holds no text. -/
def isEmpty (s : Span) : Bool := s.length == 0

end Span

/-- How far a part is built. -/
inductive BuildState
  /-- Not built, or interrupted. -/
  | unbuilt
  /-- The children are being built. -/
  | building
  /-- Built, with the part's own mesh if it has one. -/
  | built
  deriving DecidableEq

/-- A part of a model, with the parts below it. -/
structure Node (α : Type) where
  kind : Kind α
  transform : Transform α
  material : Material
  name : Option String
  span : Option Span
  children : List (Node α)
  key : CacheKey
  state : BuildState
  /-- The part's own mesh, which counts only while the part is built. -/
  mesh : Option (Mesh α)

namespace Node

variable {α ω : Type} [Scalar α]

/-! ## Making parts -/

section Making

variable [KeyDigest]

/-- An unbuilt part. -/
def make (kind : Kind α) (transform : Transform α) (material : Material) (name : Option String)
    (span : Option Span) (children : List (Node α)) : Node α :=
  { kind, transform, material, name, span, children
    key := .compute kind material transform (children.map (·.key))
    state := .unbuilt
    mesh := none }

/-- An unbuilt part of a kind, in the place of its parent and of the default material. -/
def new (kind : Kind α) : Node α :=
  make kind .identity .default none none []

/-- The key that follows from the part. -/
def computedKey (n : Node α) : CacheKey :=
  .compute n.kind n.material n.transform (n.children.map (·.key))

/-- The part with its key renewed; it is unbuilt if the key is another one. -/
def rekey (n : Node α) : Node α :=
  if n.computedKey = n.key then n
  else { n with key := n.computedKey, state := .unbuilt, mesh := none }

/-- The part in another place. -/
def withTransform (n : Node α) (transform : Transform α) : Node α :=
  { n with transform }.rekey

/-- The part of another material. -/
def withMaterial (n : Node α) (material : Material) : Node α :=
  { n with material }.rekey

/-- The part with other children. -/
def withChildren (n : Node α) (children : List (Node α)) : Node α :=
  { n with children }.rekey

end Making

/-- The part under a name. Names are no part of the key. -/
def withName (n : Node α) (name : String) : Node α :=
  { n with name := some name }

/-- The part with its place in a source text, which is no part of the key. -/
def withSpan (n : Node α) (span : Span) : Node α :=
  { n with span := some span }

/-! ## Asking parts -/

/-- The part is built; those below it need not be. -/
def isBuilt (n : Node α) : Bool := n.state = .built

/-- The part's own mesh, in its own space, once it is built. -/
def mesh? (n : Node α) : Option (Mesh α) := if n.isBuilt then n.mesh else none

/-- The part hides what is behind it. -/
def isOpaque (n : Node α) : Bool := n.material.isOpaque

mutual

/-- The number of polygons drawn for the part and those below it, as far as they are built. -/
def polygonCount : Node α → Nat
  | n@{ kind, children, .. } =>
    (n.mesh?.map Mesh.triangleCount).getD 0
      + if kind.rendersChildren then polygonCountAll children else 0

/-- The number of polygons drawn for a list of parts. -/
def polygonCountAll : List (Node α) → Nat
  | [] => 0
  | n :: ns => n.polygonCount + polygonCountAll ns

end

mutual

/-- The first part of a name, from this one down, before its later siblings. -/
def find? (name : String) : Node α → Option (Node α)
  | n@{ children, .. } => if n.name = some name then some n else findAll? name children

/-- The first part of a name in or below a list of parts. -/
def findAll? (name : String) : List (Node α) → Option (Node α)
  | [] => none
  | n :: ns => (n.find? name).or (findAll? name ns)

end

mutual

/-- The part and all below it describe no geometry. -/
def isEmpty : Node α → Bool
  | { kind, children, .. } => kind.isEmpty && allEmpty children

/-- No part of a list describes geometry. -/
def allEmpty : List (Node α) → Bool
  | [] => true
  | n :: ns => n.isEmpty && allEmpty ns

end

mutual

/-- The box of the part in its own space. Its mesh gives it once it is built and the estimate of
    its kind before. Children that are drawn count always, others only until the part is built. -/
def bounds : Node α → Bounds α
  | n@{ kind, children, .. } =>
    let own := match n.mesh? with
      | some m => m.bounds
      | none => kind.bounds
    if kind.rendersChildren || !n.isBuilt then unionBounds own children else own

/-- A box extended to the boxes of a list of parts in the space around them. -/
def unionBounds (b : Bounds α) : List (Node α) → Bounds α
  | [] => b
  | n :: ns => unionBounds (b.union (n.transform.applyBounds n.bounds)) ns

end

/-- The box of the part in the space around it. -/
def worldBounds (n : Node α) : Bounds α :=
  n.transform.applyBounds n.bounds

/-- The part's own mesh as it is drawn: in the color of the part's material, unless that is the
    default or the mesh has colors. -/
def drawnMesh (n : Node α) : Mesh α :=
  match n.mesh? with
  | none => .empty
  | some m =>
    if m.isPainted || n.material == .default then m else m.paint n.material.vertexColor

mutual

/-- All polygons drawn for the part and those below it, as far as they are built, as one mesh in
    the space around the part. -/
def flattened : Node α → Except Fault (Mesh α)
  | n@{ kind, children, transform, .. } => do
    let own ← Mesh.empty.merge n.drawnMesh
    let all ← if kind.rendersChildren then mergeFlattened own children else pure own
    return if transform.isIdentity then all else all.transform transform.matrix

/-- A mesh with the polygons drawn for a list of parts. -/
def mergeFlattened (m : Mesh α) : List (Node α) → Except Fault (Mesh α)
  | [] => return m
  | n :: ns => do mergeFlattened (← m.merge (← n.flattened)) ns

end

/-! ## Attachments -/

/-- What is attached in a cache for the part's key and material. -/
def lookupAttachment {β : Type} (n : Node α) (c : Cache α ω) (read : ω → Option β) :
    Option β × Cache α ω :=
  c.lookupAttachment n.key n.material read

/-- An attachment in a cache for the part's key and material. -/
def attach (n : Node α) (c : Cache α ω) (a : ω) : Cache α ω :=
  c.attach n.key n.material a

end Node

end Solids
