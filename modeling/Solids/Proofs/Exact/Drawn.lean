import Mathlib.Analysis.SpecialFunctions.Trigonometric.Basic
import Solids.Proofs.Exact.Estimate
import Solids.Proofs.Mesh.Shapes
import Solids.Proofs.Node.Drawing

/-!
# Boxes enclose what is drawn

Over exact numbers the box of a tree in the world encloses all that is drawn of it, however far
which of its parts are built, and so does the box of a scene (`bounds_enclose_drawn`).

The box and the drawing go down the tree by different rules. A part that is not built has a box and
draws nothing itself; a part that used up its children is drawn without them, and its box is that of
its mesh alone. What makes them fit together is that every part that is drawn has its mesh in its
box (`Node.covers_mesh`), and its box takes in, at each level, those of the children drawn beside it
(`Node.covers_child`).
-/

namespace Solids

variable [Reading]

namespace Node

/-- The box of a tree takes in that of its mesh. -/
theorem covers_mesh {n : Node ℝ} {m : Mesh ℝ} (hm : n.mesh? = some m) :
    n.bounds.Covers m.bounds := by
  rw [bounds_eq, hm]
  dsimp only
  split
  · rw [unionBounds_eq]
    exact Bounds.covers_foldl_union _ _ _ List.mem_cons_self
  · exact Bounds.covers_refl _

/-- The box of a tree takes in those of the children drawn beside it, in their places. -/
theorem covers_child {n c : Node ℝ} (hrenders : n.kind.rendersChildren = true)
    (hc : c ∈ n.children) : n.bounds.Covers c.worldBounds := by
  rw [bounds_eq, hrenders]
  dsimp only
  rw [Bool.true_or, if_pos rfl, unionBounds_eq]
  exact Bounds.covers_foldl_union _ _ _ (List.mem_cons_of_mem _ (List.mem_map_of_mem hc))

/-- What is drawn of a tree is in its box in the world. -/
theorem within_worldBounds (n : Node ℝ) :
    Outcome n.flattened True (Mesh.Within n.worldBounds.Holds) := by
  induction n using induction with
  | step n ih =>
    refine within_flattened (fun m hm p hp => ?_) fun hrenders c hc => ?_
    · exact (covers_mesh hm).holds (Bounds.holds_ofPoints (Array.mem_toList_iff.2 hp))
    · exact (ih c hc).imp id fun m hm p hp => (covers_child hrenders hc).holds (hm p hp)

/-- What is drawn of trees is in the box around them. -/
theorem within_unionBounds (ns : List (Node ℝ)) :
    Outcome (mergeFlattened .empty ns) True (Mesh.Within (unionBounds .empty ns).Holds) := by
  refine within_mergeFlattened Mesh.within_empty fun n hn => ?_
  have hcovers : (unionBounds .empty ns).Covers n.worldBounds := by
    rw [unionBounds_eq]
    exact Bounds.covers_foldl_union _ _ _ (List.mem_cons_of_mem _ (List.mem_map_of_mem hn))
  exact n.within_worldBounds.imp id fun m hm p hp => hcovers.holds (hm p hp)

/-- The box around trees is proper. -/
theorem proper_unionBounds (ns : List (Node ℝ)) : (unionBounds .empty ns).Proper := by
  rw [unionBounds_eq]
  refine Bounds.proper_empty.foldl_union (List.forall_mem_map.2 fun n _ => ?_)
  exact n.transform.proper_applyBounds n.proper_bounds

end Node

/-- The box holds every vertex of the mesh, and contains its box. -/
def Bounds.Encloses (b : Bounds ℝ) (m : Mesh ℝ) : Prop :=
  m.Within b.Holds ∧ b.contains m.bounds = true

/-- A proper box encloses a mesh that is within it. -/
theorem Bounds.Proper.encloses {b : Bounds ℝ} (hb : b.Proper) {m : Mesh ℝ}
    (hm : m.Within b.Holds) : b.Encloses m :=
  ⟨hm, (Bounds.covers_ofPoints hb fun p hp => hm p (Array.mem_toList_iff.1 hp)).contains⟩

/-- Over exact numbers, the box of a tree in the world encloses what is drawn of it, however far
    which of its parts are built and wherever they are placed, and the box of a scene encloses what
    is drawn of that. There is something drawn of every tree and scene with well-formed meshes that
    have no more vertices together than there are indices. -/
theorem bounds_enclose_drawn :
    (∀ n : Node ℝ,
      (∀ m, n.flattened = .ok m → n.worldBounds.Encloses m) ∧
      (n.MeshesWellFormed → Mesh.vertexTotal n.blocks ≤ UInt32.size → ∃ m, n.flattened = .ok m)) ∧
    ∀ scene : Scene ℝ,
      (∀ m, scene.merged = .ok m → scene.bounds.Encloses m) ∧
      ((∀ n ∈ scene.roots, n.MeshesWellFormed) →
        Mesh.vertexTotal (Node.blocksOfAll scene.roots) ≤ UInt32.size →
          ∃ m, scene.merged = .ok m) := by
  constructor
  · intro n
    have hbounds : n.worldBounds.Proper := n.transform.proper_applyBounds n.proper_bounds
    refine ⟨fun m hm => hbounds.encloses (n.within_worldBounds.of_ok hm), fun hn htotal => ?_⟩
    have hdrawn := Node.flattened_outcome hn
    exact ⟨_, (DrawnAs.of_outcome hdrawn n.polygonCount_eq_sum).eq_ok htotal⟩
  · intro scene
    have hbounds : scene.bounds.Proper := Node.proper_unionBounds scene.roots
    refine ⟨fun m hm => hbounds.encloses ((Node.within_unionBounds _).of_ok hm),
      fun hroots htotal => ?_⟩
    have hdrawn := Node.mergeFlattened_outcome (fun n hn =>
      ⟨(hroots n hn).of_mem_blocks, Node.flattened_outcome (hroots n hn)⟩) (List.forall_mem_nil _)
    exact ⟨_, (DrawnAs.of_outcome hdrawn (Node.polygonCountAll_eq_sum _)).eq_ok htotal⟩

end Solids

/-! ## A cube beside a cylinder -/

namespace Solids

attribute [local instance] Session.coarseReading Session.byteCount

/-- The cube out of the way is built and the cylinder beside it is not, as a build leaves them that
    was stopped between the two, in a group that stretches and mirrors them. -/
noncomputable def halfBuiltPair : Node ℝ :=
  .make .group { Transform.identity with scale := ⟨-2.0, 1.0, 3.0⟩ } .default none none
    [{ Session.movedCube with state := .built, mesh := some Primitive.cube }, Session.prism]

/-- Something is drawn of the pair, and its box encloses that, in a scene too. -/
theorem bounds_enclose_halfBuiltPair : halfBuiltPair.MeshesWellFormed ∧
    (∃ m, halfBuiltPair.flattened = .ok m ∧ halfBuiltPair.worldBounds.Encloses m) ∧
    ∃ m, ({ roots := [halfBuiltPair] } : Scene ℝ).merged = .ok m ∧
      ({ roots := [halfBuiltPair] } : Scene ℝ).bounds.Encloses m := by
  have hformed : halfBuiltPair.MeshesWellFormed := by
    intro p hp m hm
    change p ∈ [halfBuiltPair, _, Session.prism] at hp
    simp only [List.mem_cons, List.not_mem_nil, or_false] at hp
    rcases hp with rfl | rfl | rfl
    · cases hm
    · cases hm
      exact Primitive.wellFormed_cube
    · cases hm
  have htree := bounds_enclose_drawn.1 halfBuiltPair
  have hscene := bounds_enclose_drawn.2 { roots := [halfBuiltPair] }
  obtain ⟨m, hm⟩ := htree.2 hformed (by decide +kernel)
  obtain ⟨m', hm'⟩ := hscene.2 (List.forall_mem_singleton.2 hformed) (by decide +kernel)
  exact ⟨hformed, ⟨m, hm, htree.1 m hm⟩, m', hm', hscene.1 m' hm'⟩

end Solids
