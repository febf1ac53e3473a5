import Solids.Mesh.Basic
import Solids.Path
import Solids.Planar.Triangulation

/-!
# Fills

A closed path filled with a flat surface that faces both ways. An open path, or one of too few
points, has nothing to fill.
-/

namespace Solids

variable {α : Type} [Scalar α]

/-- A closed path filled with a flat surface that faces both ways. -/
def Path.fill (path : Path α) : Mesh α :=
  if !path.isClosed then .empty
  else
    let points := path.flattened.dropLast
    if points.length < 3 then .empty
    else
      let outline := Outline.ofPoints points.toArray path.faceNormal
      let front := outline.triangulate.map fun t => (t.map Fin.val).toIndices
      { vertices := points.toArray
        triangles := front.flatMap fun t => [t, t.flip] }

end Solids
