import Solids.Vector

/-!
# Triangles

Three corners in order (`Triangle`), of whatever kind: points, places of a list, vertices of a
mesh. They run counter-clockwise for whoever looks at the front, so exchanging two of them turns
the triangle around (`Triangle.flip`), and every edge has the triangle on its left
(`Triangle.edges`).
-/

namespace Solids

/-- Three corners, counter-clockwise seen from the front. -/
structure Triangle (β : Type) where
  a : β
  b : β
  c : β
  deriving DecidableEq

namespace Triangle

variable {β γ : Type}

/-- The triangle facing the other way. -/
def flip (t : Triangle β) : Triangle β := ⟨t.a, t.c, t.b⟩

/-- The triangle of the images of the corners. -/
def map (f : β → γ) (t : Triangle β) : Triangle γ := ⟨f t.a, f t.b, f t.c⟩

/-- The triangle of what `f` finds for each corner, in order. -/
def mapM {m : Type → Type} [Monad m] (f : β → m γ) (t : Triangle β) : m (Triangle γ) := do
  return ⟨← f t.a, ← f t.b, ← f t.c⟩

/-- The corners, in order. -/
def toList (t : Triangle β) : List β := [t.a, t.b, t.c]

/-- The steps from each corner to the next. -/
def edges (t : Triangle β) : List (β × β) := [(t.a, t.b), (t.b, t.c), (t.c, t.a)]

/-- Turning a triangle around twice changes nothing. -/
@[simp] theorem flip_flip (t : Triangle β) : t.flip.flip = t := rfl

/-- It is the same to turn a triangle around before its corners are mapped or after. -/
@[simp] theorem map_flip (f : β → γ) (t : Triangle β) : t.flip.map f = (t.map f).flip := rfl

/-- The corners of an image are the images of the corners. -/
@[simp] theorem toList_map (f : β → γ) (t : Triangle β) : (t.map f).toList = t.toList.map f := rfl

/-- A triangle over places of a list, by the indices that meshes know them by. -/
def toIndices (t : Triangle Nat) : Triangle UInt32 := t.map Nat.toUInt32

/-! ## Measures -/

variable {α : Type} [Scalar α]

/-- Six times the signed volume between the origin and a triangle of space. -/
def sixfoldVolume (t : Triangle (Vec3 α)) : α :=
  t.a.dot (t.b.cross t.c)

/-- The area of the parallelogram that a triangle spans, twice its own area. -/
def doubleArea (t : Triangle (Vec3 α)) : α :=
  ((t.b - t.a).cross (t.c - t.a)).length

/-- The triangle is more than a line, within the tolerance. -/
def hasArea (t : Triangle (Vec3 α)) : Bool :=
  tolerance ≤ t.doubleArea

/-- How far the way over the corners of a triangle of the plane turns to the left, as twice its
    signed area. -/
def turn (t : Triangle (Vec2 α)) : α :=
  (t.b - t.a).perp (t.c - t.b)

/-- The point lies in the counter-clockwise triangle or on its border. -/
def encloses (t : Triangle (Vec2 α)) (p : Vec2 α) : Bool :=
  0.0 ≤ (t.b - t.a).perp (p - t.a)
    && 0.0 ≤ (t.c - t.b).perp (p - t.b)
    && 0.0 ≤ (t.a - t.c).perp (p - t.c)

end Triangle

end Solids
