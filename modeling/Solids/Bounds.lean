import Solids.Matrix

/-!
# Bounds

Boxes along the axes. The empty box has its corners at the infinities, so that it is the unit of
`union` and lies in every box. A box is empty as soon as one of its sides is reversed.
-/

namespace Solids

/-- A box along the axes, by its least and its greatest corner. -/
structure Bounds (α : Type) where
  min : Vec3 α
  max : Vec3 α
  deriving BEq

namespace Bounds

variable {α : Type} [Scalar α]

/-- The box that holds no point, the unit of `union`. -/
def empty : Bounds α :=
  ⟨.splat Scalar.infinity, .splat (-Scalar.infinity)⟩

/-- The box of the unit shapes, with its center in the origin. -/
def unit : Bounds α :=
  ⟨.splat (-0.5), .splat 0.5⟩

/-- The box holds no point. -/
def isEmpty (b : Bounds α) : Bool :=
  b.max.x < b.min.x || b.max.y < b.min.y || b.max.z < b.min.z

/-- The box extended to a point. -/
def including (b : Bounds α) (p : Vec3 α) : Bounds α :=
  ⟨b.min.lesser p, b.max.greater p⟩

/-- The least box around a list of points. -/
def ofPoints (ps : List (Vec3 α)) : Bounds α :=
  ps.foldl including empty

/-- The extent along each axis. -/
def size (b : Bounds α) : Vec3 α :=
  if b.isEmpty then .zero else b.max - b.min

/-- The point halfway between the corners; the origin for an empty box. -/
def center (b : Bounds α) : Vec3 α :=
  if b.isEmpty then .zero else (b.min + b.max) / (2.0 : α)

/-- The least box around two boxes. -/
def union (a b : Bounds α) : Bounds α :=
  if b.isEmpty then a
  else if a.isEmpty then b
  else ⟨a.min.lesser b.min, a.max.greater b.max⟩

/-- The box moved by an offset. -/
def translated (b : Bounds α) (offset : Vec3 α) : Bounds α :=
  if b.isEmpty then b else ⟨b.min + offset, b.max + offset⟩

/-- The box grown by an amount on every side. -/
def expanded (b : Bounds α) (amount : α) : Bounds α :=
  if b.isEmpty then b else ⟨b.min - .splat amount, b.max + .splat amount⟩

/-- The eight corners, `x` changing fastest. -/
def corners (b : Bounds α) : List (Vec3 α) :=
  [⟨b.min.x, b.min.y, b.min.z⟩, ⟨b.max.x, b.min.y, b.min.z⟩,
   ⟨b.min.x, b.max.y, b.min.z⟩, ⟨b.max.x, b.max.y, b.min.z⟩,
   ⟨b.min.x, b.min.y, b.max.z⟩, ⟨b.max.x, b.min.y, b.max.z⟩,
   ⟨b.min.x, b.max.y, b.max.z⟩, ⟨b.max.x, b.max.y, b.max.z⟩]

/-- The least box around the images of the corners. -/
def transformed (b : Bounds α) (m : Matrix α) : Bounds α :=
  if b.isEmpty then b else ofPoints (b.corners.map m.apply)

/-- The second box lies in the first, within the tolerance. The empty box lies in every box. -/
def contains (a b : Bounds α) : Bool :=
  if b.isEmpty then true
  else if a.isEmpty then false
  else
    -- By the tolerance the inner box may reach out of the other.
    let low := b.min + .splat tolerance
    let high := b.max - .splat tolerance
    a.min.x ≤ low.x && a.min.y ≤ low.y && a.min.z ≤ low.z
      && high.x ≤ a.max.x && high.y ≤ a.max.y && high.z ≤ a.max.z

/-- Both boxes are empty, or their corners agree within an error. -/
def approxEq (a b : Bounds α) (error : α) : Bool :=
  if a.isEmpty || b.isEmpty then a.isEmpty && b.isEmpty
  else (a.min - b.min).abs.greatest ≤ error && (a.max - b.max).abs.greatest ≤ error

end Bounds

end Solids
