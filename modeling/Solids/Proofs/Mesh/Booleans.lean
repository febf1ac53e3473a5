import Solids.Boolean
import Solids.Proofs.Mesh.WellFormed

/-!
# Combinations are well formed

Well-formed meshes are combined to well-formed ones (`Mesh.WellFormed.combine`). Their triangles are
read as polygons, which carry what they need, and the mesh of any polygons is well formed
(`Mesh.wellFormed_ofPolygons`), so nothing has to be known of how space is divided but that a
division which does not end is a fault.
-/

namespace Solids

variable {α : Type}

namespace Mesh

/-! ## Meshes of polygons -/

/-- The triangles of polygons are over the vertices of these, which start at `base`. -/
theorem over_of_mem_fanTriangles {base : Nat} {ps : List (Polygon α)} {t : Triangle UInt32}
    (ht : t ∈ fanTriangles base ps) :
    t.Over fun i => i.toNat < base + (ps.flatMap (·.vertices)).length := by
  induction ps generalizing base with
  | nil => cases ht
  | cons p ps ih =>
    rw [List.flatMap_cons, List.length_append]
    rcases List.mem_append.1 ht with ht | ht
    · obtain ⟨f, hf, rfl⟩ := List.mem_map.1 ht
      have hplaces : f.Over (· < base + p.vertices.length) :=
        over_of_mem_fan (fun i hi => (List.mem_range'_1.1 hi).2) hf
      exact (Triangle.over_toIndices hplaces).imp fun i hi => by omega
    · exact (ih ht).imp fun i hi => by omega

/-- The mesh of polygons is well formed. -/
theorem wellFormed_ofPolygons (ps : List (Polygon α)) : (ofPolygons ps).WellFormed where
  corner_lt t ht := (over_of_mem_fanTriangles ht).imp fun i hi => by
    rwa [Nat.zero_add] at hi
  size_colors colors hcolors := by
    unfold ofPolygons at hcolors ⊢
    dsimp only at hcolors ⊢
    split at hcolors
    · cases hcolors
      simp only [List.size_toArray, List.length_flatMap, List.length_replicate]
    · cases hcolors

end Mesh

variable [Scalar α]

/-! ## Divisions of space -/

namespace Tree

/-- A tree is made from polygons, unless they cannot be divided. -/
theorem safe_ofPolygons (ps : List (Polygon α)) : Safe (ofPolygons ps) fun _ => True := by
  induction ps using ofPolygons.induct with
  | case1 =>
    rw [ofPolygons]
    trivial
  | case2 p ps hlies parts ihfront ihback =>
    rw [ofPolygons, dif_pos hlies]
    exact ihfront.bind fun _ _ => ihback.bind fun _ _ => trivial
  | case3 p ps hlies =>
    rw [ofPolygons, dif_neg hlies]
    trivial

/-- Polygons are put into a tree, unless they cannot be divided. -/
theorem safe_insert (tree : Tree α) (ps : List (Polygon α)) :
    Safe (tree.insert ps) fun _ => True := by
  induction tree generalizing ps with
  | leaf => exact safe_ofPolygons ps
  | node plane own front back ihfront ihback =>
    exact (ihfront _).bind fun _ _ => (ihback _).bind fun _ _ => trivial

end Tree

/-! ## Combinations -/

namespace Mesh.WellFormed

variable {m n : Mesh α}

/-- The triangles of a well-formed mesh are read as polygons. -/
theorem polygons (h : m.WellFormed) : Safe m.polygons fun _ => True := by
  have hpolygon : ∀ t ∈ m.triangles, Safe (m.polygon? t) fun _ => True := by
    intro t ht
    refine (h.corners ht).bind fun _ _ => ?_
    dsimp only
    split
    · have hcolor : Safe (some <$> m.vertexColor t.a) fun _ => True :=
        (h.vertexColor (h.corner_lt t ht).1).map fun _ _ => trivial
      exact hcolor.bind fun _ _ => trivial
    · trivial
  rw [Mesh.polygons]
  exact (Safe.mapM hpolygon).bind fun _ _ => trivial

/-- The trees of two meshes are made, unless their polygons cannot be divided. -/
theorem trees (hm : m.WellFormed) (hn : n.WellFormed) : Safe (trees m n) fun _ => True := by
  refine hm.polygons.bind fun ps _ => hn.polygons.bind fun qs _ => ?_
  split
  · trivial
  · exact (Tree.safe_ofPolygons ps).bind fun _ _ =>
      (Tree.safe_ofPolygons qs).bind fun _ _ => trivial

/-- One of two meshes is well formed if both are. -/
theorem orElse (hm : m.WellFormed) (hn : n.WellFormed) : Safe (m.orElse n) WellFormed := by
  refine hm.polygons.bind fun ps _ => ?_
  change WellFormed (if _ then _ else _)
  split
  · exact hn
  · exact hm

/-- The union of well-formed meshes is well formed. -/
theorem union (hm : m.WellFormed) (hn : n.WellFormed) : Safe (m.union n) WellFormed := by
  refine (hm.trees hn).bind fun r _ => ?_
  split
  · exact hm.orElse hn
  · exact (Tree.safe_insert _ _).bind fun t _ => wellFormed_ofPolygons _

/-- The difference of well-formed meshes is well formed. -/
theorem difference (hm : m.WellFormed) (hn : n.WellFormed) : Safe (m.difference n) WellFormed := by
  refine (hm.trees hn).bind fun r _ => ?_
  split
  · exact hm.orElse wellFormed_empty
  · exact (Tree.safe_insert _ _).bind fun t _ => wellFormed_ofPolygons _

/-- The intersection of well-formed meshes is well formed. -/
theorem intersection (hm : m.WellFormed) (hn : n.WellFormed) :
    Safe (m.intersection n) WellFormed := by
  refine (hm.trees hn).bind fun r _ => ?_
  split
  · exact wellFormed_empty
  · exact (Tree.safe_insert _ _).bind fun t _ => wellFormed_ofPolygons _

/-- The exclusive union of well-formed meshes is well formed. -/
theorem xor (hm : m.WellFormed) (hn : n.WellFormed) : Safe (m.xor n) WellFormed :=
  (hm.difference hn).bind fun _ hd => (hn.difference hm).bind fun _ hd' => hd.merge hd'

/-- A well-formed mesh painted by another is well formed. -/
theorem stencil (hm : m.WellFormed) (hn : n.WellFormed) : Safe (m.stencil n) WellFormed := by
  refine hm.polygons.bind fun ps _ => ?_
  split
  · exact hm
  · exact hm
  · next t _ _ htriangles =>
    have ht : t ∈ n.triangles := htriangles ▸ List.mem_cons_self
    refine (hn.vertexColor (hn.corner_lt t ht).1).bind fun paint _ =>
      hn.polygons.bind fun qs _ => ?_
    exact (Tree.safe_ofPolygons qs).bind fun tree _ => wellFormed_ofPolygons _

/-- Well-formed meshes are combined to a well-formed one, unless space cannot be divided or an index
    grows too great. -/
theorem combine (op : Boolean) (hm : m.WellFormed) (hn : n.WellFormed) :
    Safe (m.combine op n) WellFormed := by
  cases op with
  | union => exact hm.union hn
  | difference => exact hm.difference hn
  | intersection => exact hm.intersection hn
  | xor => exact hm.xor hn
  | stencil => exact hm.stencil hn

end Mesh.WellFormed

end Solids
