import Solids.Bounds

/-!
# Transforms

The place of a part in its surroundings: a scale, then a rotation, then an offset. Transforms are
composed as matrices and taken apart again (`Transform.followedBy`), where a shear is lost.
-/

namespace Solids

variable {α : Type} [Scalar α]

/-- The place of a part in its surroundings. -/
structure Transform (α : Type) where
  offset : Vec3 α
  rotation : Rotation α
  scale : Vec3 α
  deriving BEq

namespace Transform

/-- The place of what was not moved. -/
def identity : Transform α := ⟨.zero, .identity, .one⟩

/-- The transform changes nothing. -/
def isIdentity (t : Transform α) : Bool := t == identity

/-- The affine map of a place. -/
def matrix (t : Transform α) : Matrix α := .compose t.scale t.rotation t.offset

/-- The transform nearest to a matrix. -/
def ofMatrix (m : Matrix α) : Transform α :=
  let (scale, rotation, offset) := m.decompose
  { offset, rotation, scale }

/-- The place that a part has in the surroundings of its parent, which has the first transform. -/
def followedBy (outer inner : Transform α) : Transform α :=
  .ofMatrix (outer.matrix * inner.matrix)

/-- The box around a transformed box. -/
def applyBounds (t : Transform α) (b : Bounds α) : Bounds α :=
  if t.isIdentity then b else b.transformed t.matrix

end Transform

end Solids
