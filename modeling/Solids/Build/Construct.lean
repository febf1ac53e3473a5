import Solids.Boolean
import Solids.Hull
import Solids.Node
import Solids.Planar.Fill
import Solids.Primitive.Box
import Solids.Primitive.Round
import Solids.Sweep.Lathe
import Solids.Sweep.Loft

/-!
# Making a part's own mesh

The rule by which a kind makes its mesh from its parameters and its built children
(`Kind.construct`). Where geometry cannot be made (`MeshError`) it makes a mesh without polygons,
so that a model is built as far as it has a shape. What still faults are a mesh that was written
down with indices that point nowhere, when something reads through them or moves them up, and a
sphere in more segments than can be counted on by one.
-/

namespace Solids

variable {α : Type} [Scalar α]

/-- A mesh, and the one without vertices in place of an error. -/
def Mesh.orEmpty (r : Except MeshError (Mesh α)) : Mesh α :=
  match r with
  | .ok m => m
  | .error _ => .empty

/-- Every profile that is a line swept straight, or along every rail that is one. -/
def Extrusion.construct (options : Extrusion α) (paths : List (Path α)) :
    Except Fault (Mesh α) :=
  if options.along.isEmpty then Mesh.mergeAll ((Path.usable paths).map Path.extrude)
  else Mesh.mergeAll ((Path.usable paths).flatMap fun profile =>
    (Path.usable options.along).map fun rail =>
      profile.extrudeAlong rail options.twist options.align)

namespace Boolean

/-- Without a first operand there is nothing to cut from or to paint on. -/
def needsFirst : Boolean → Bool
  | difference | stencil => true
  | _ => false

/-- The meshes of children put together, from the first to the last. Nothing intersects an empty
    mesh; beside that, the empty ones after the first are skipped. -/
def combineAll (op : Boolean) (meshes : List (Mesh α)) : Except Fault (Mesh α) :=
  match meshes with
  | [] => .ok .empty
  | first :: rest =>
    if op = .intersection ∧ meshes.any (·.isEmpty) then .ok .empty
    else if op.needsFirst ∧ first.isEmpty then .ok .empty
    else (rest.filter fun m => !m.isEmpty).foldlM (Mesh.combine op) first

end Boolean

/-- The own mesh of a kind that has one, from the built children. -/
def Kind.construct (kind : Kind α) (children : List (Node α)) : Except Fault (Mesh α) :=
  match kind with
  | .cube => .ok Primitive.cube
  | .cylinder n => .ok (.orEmpty (Primitive.cylinder n))
  | .cone n => .ok (.orEmpty (Primitive.cone n))
  | .sphere n => return .orEmpty (← Primitive.sphere n)
  | .extrude paths options => options.construct paths
  | .lathe paths n => Mesh.mergeAll ((Path.usable paths).map fun p => .orEmpty (p.lathe n))
  | .loft paths => .ok (Path.loft paths)
  | .fill paths => Mesh.mergeAll ((Path.usable paths).map Path.fill)
  | .hull points => return .orEmpty (hullOf points (← children.mapM Node.flattened))
  | .combination op => do op.combineAll (← children.mapM Node.flattened)
  | .mesh m => .ok m
  | .group | .path _ | .camera _ | .light _ => .ok .empty

end Solids
