import Solids.Cycle
import Solids.Mesh.Basic

/-!
# The unit cube

Eight corners and two triangles on each of the six faces.
-/

namespace Solids.Primitive

variable {α : Type} [Scalar α]

/-- Corner `i` lies on the upper side along axis `k` if bit `k` of `i` is set. -/
def cubeCorner (i : Nat) : Vec3 α :=
  let side (bit : Nat) : α := if i.testBit bit then 0.5 else -0.5
  ⟨side 0, side 1, side 2⟩

/-- The faces by their corners, counter-clockwise seen from outside. -/
def cubeFaces : List (List Nat) :=
  [[0, 4, 6, 2], [1, 3, 7, 5], [0, 1, 5, 4], [2, 6, 7, 3], [0, 2, 3, 1], [4, 5, 7, 6]]

/-- The unit cube around the origin. -/
def cube : Mesh α where
  vertices := ((List.range 8).map cubeCorner).toArray
  triangles := (cubeFaces.flatMap fan).map .toIndices

end Solids.Primitive
