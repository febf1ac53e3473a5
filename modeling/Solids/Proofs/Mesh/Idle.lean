import Solids.Proofs.Mesh.Concatenation
import Solids.Proofs.Mesh.Division
import Solids.Proofs.Mesh.Shapes

/-!
# Operands that enclose nothing

A mesh none of whose triangles has an area encloses nothing (`Mesh.HasFace`), and counts as empty
space in what it is combined with (`Mesh.combine_idle`): the other operand stays as it is, or
nothing does. What an operation does with such an operand it finds out from the polygons that are
read from it.

The stencil looks for triangles instead of polygons. Against triangles without area it divides
nothing, and then takes all of its first operand to be outside and all of it to be inside, so that
the surface is there twice (`Mesh.doubled_cube`).
-/

namespace Solids

variable {α : Type}

namespace Mesh

/-! ## Merging with nothing -/

/-- Nothing is added to a well-formed mesh. -/
theorem merge_empty {m : Mesh α} (hm : m.WellFormed) : m.merge empty = .ok m := by
  have hcolors : mergedColors m empty = m.colors := by
    unfold mergedColors
    cases hown : m.colors with
    | none => rfl
    | some own =>
      have hsize : own.size = m.vertices.size := hm.size_colors own hown
      have hall : own.extract 0 m.vertices.size = own :=
        Array.extract_eq_self_of_le (Nat.le_of_eq hsize)
      simp [empty, fitColors, hsize, hall]
  change Except.ok (Mesh.mk (m.vertices ++ #[]) (m.triangles ++ []) (mergedColors m empty)) = _
  rw [hcolors, Array.append_empty, List.append_nil]

/-- A mesh is added to nothing. -/
theorem empty_merge (m : Mesh α) : (empty : Mesh α).merge m = .ok m := by
  have hindex (i : UInt32) : checkedSum i (empty : Mesh α).nextIndex = .ok i :=
    checkedSum_eq_ok_iff.2 (Nat.add_zero _)
  have hmoved : m.triangles.mapM (shifted (empty : Mesh α).nextIndex) = .ok m.triangles := by
    refine mapM_eq_ok_of_forall₂ (List.forall₂_same.2 fun t _ => ?_)
    rw [shifted, Triangle.mapM, hindex, hindex, hindex]
    rfl
  have hcolors : mergedColors empty m = m.colors := by
    unfold mergedColors
    cases hcolors : m.colors <;> simp [empty]
  rw [merge, hmoved]
  change Except.ok (Mesh.mk (#[] ++ m.vertices) ([] ++ m.triangles) (mergedColors empty m)) = _
  rw [hcolors, Array.empty_append, List.nil_append]

variable [Scalar α] {a b : Mesh α}

/-! ## Polygons -/

/-- A triangle of the mesh has an area. -/
def HasFace (m : Mesh α) : Prop := ∃ p, m.Face p

/-- Every triangle with an area is read as a polygon, but for the color. -/
theorem exists_mem_polygons {ps : List (Polygon α)} (hps : a.polygons = .ok ps) {q : Polygon α}
    (hq : a.Face q) : ∃ color, { q with color } ∈ ps := by
  obtain ⟨t, ht, c, hc, hvertices, hplane⟩ := hq
  obtain ⟨rs, hrs, hread⟩ := bind_eq_ok_iff.1 hps
  cases hread
  obtain ⟨r, hr, hpolygon⟩ := exists_mem_of_forall₂ (forall₂_of_mapM_eq_ok hrs).flip ht
  obtain ⟨c', hc', hpolygon⟩ := bind_eq_ok_iff.1 hpolygon
  obtain rfl : c = c' := Except.ok.inj (hc.symm.trans hc')
  obtain ⟨color, rfl⟩ : ∃ color, Polygon.make? c.toList color = r := by
    dsimp only at hpolygon
    split at hpolygon
    · obtain ⟨color, -, hmake⟩ := bind_eq_ok_iff.1 hpolygon
      exact ⟨_, Except.ok.inj hmake⟩
    · exact ⟨none, Except.ok.inj hpolygon⟩
  refine ⟨color, List.mem_filterMap.2 ⟨_, hr, ?_⟩⟩
  simp [Polygon.make?, Triangle.toList, hplane, hvertices]

/-- A well-formed mesh is read as its triangles with an area. -/
theorem WellFormed.exists_polygons (hm : a.WellFormed) :
    ∃ ps, a.polygons = .ok ps ∧ (∀ p ∈ ps, a.Face p) ∧ (ps.isEmpty = true ↔ ¬a.HasFace) := by
  obtain ⟨ps, hps, hfaces⟩ := hm.reads_polygons.exists_ok
  refine ⟨ps, hps, hfaces, ?_, fun hidle => ?_⟩
  · rintro hempty ⟨q, hq⟩
    obtain ⟨color, hmem⟩ := exists_mem_polygons hps hq
    rw [List.isEmpty_iff.1 hempty] at hmem
    cases hmem
  · rw [List.isEmpty_iff]
    exact List.eq_nil_iff_forall_not_mem.2 fun p hp => hidle ⟨p, hfaces p hp⟩

/-- A mesh without triangles is read as no polygons. -/
theorem polygons_of_isEmpty (h : a.isEmpty = true) : a.polygons = .ok [] := by
  rw [polygons, List.isEmpty_iff.1 h]
  rfl

/-! ## Combinations -/

section Polygons

variable {ps qs : List (Polygon α)} (ha : a.polygons = .ok ps) (hb : b.polygons = .ok qs)
include ha

/-- A mesh gives way to another one just if it is read as no polygons. -/
theorem orElse_eq (other : Mesh α) : a.orElse other = .ok (if ps.isEmpty then other else a) := by
  rw [orElse, ha]
  rfl

include hb

/-- Two meshes have no trees if one of them is read as no polygons. -/
theorem trees_eq_none (hidle : ps = [] ∨ qs = []) : trees a b = .ok none := by
  have hempty : (ps.isEmpty || qs.isEmpty) = true := by
    rwa [Bool.or_eq_true, List.isEmpty_iff, List.isEmpty_iff]
  rw [trees, ha, hb]
  exact if_pos hempty

/-- A union without polygons in one of two meshes is the other one. -/
theorem union_eq (hidle : ps = [] ∨ qs = []) :
    a.union b = .ok (if ps.isEmpty then b else a) := by
  rw [union, trees_eq_none ha hb hidle]
  exact orElse_eq ha b

/-- Without polygons in one of two meshes the first stays, or nothing does. -/
theorem difference_eq (hidle : ps = [] ∨ qs = []) :
    a.difference b = .ok (if ps.isEmpty then .empty else a) := by
  rw [difference, trees_eq_none ha hb hidle]
  exact orElse_eq ha .empty

/-- Two meshes have nothing in common without polygons in one. -/
theorem intersection_eq (hidle : ps = [] ∨ qs = []) : a.intersection b = .ok .empty := by
  rw [intersection, trees_eq_none ha hb hidle]
  rfl

/-- An exclusive union without polygons in the first mesh is the second. -/
theorem xor_eq_right (hidle : ps = []) : a.xor b = .ok (if qs.isEmpty then .empty else b) := by
  subst hidle
  rw [xor, difference_eq ha hb (.inl rfl), difference_eq hb ha (.inr rfl)]
  exact empty_merge _

/-- An exclusive union without polygons in the second mesh is the first. -/
theorem xor_eq_left (hidle : qs = []) (hformed : a.WellFormed) :
    a.xor b = .ok (if ps.isEmpty then .empty else a) := by
  subst hidle
  rw [xor, difference_eq ha hb (.inr rfl), difference_eq hb ha (.inl rfl)]
  refine merge_empty ?_
  split
  · exact wellFormed_empty
  · exact hformed

/-- The stencil has what the tree of the second mesh keeps of the first, and painted what the
    complement keeps. -/
theorem stencil_eq (hface : ps.isEmpty = false) {tree : Tree α}
    (htree : Tree.ofPolygons qs = .ok tree) {t : Triangle UInt32} {ts : List (Triangle UInt32)}
    (htriangles : b.triangles = t :: ts) {paint : Rgba} (hpaint : b.vertexColor t.a = .ok paint) :
    a.stencil b = .ok (ofPolygons
      (tree.clip ps ++ (tree.invert.clip ps).map fun p => { p with color := some paint })) := by
  rw [stencil, ha]
  dsimp only [bind, Except.bind]
  rw [hface, htriangles]
  dsimp only
  rw [hpaint, hb]
  change (Tree.ofPolygons qs >>= _) = _
  rw [htree]
  rfl

omit hb in
/-- The stencil of a mesh without triangles changes nothing, and that on one without polygons. -/
theorem stencil_eq_self (hidle : ps.isEmpty = true ∨ b.triangles = []) :
    a.stencil b = .ok a := by
  rw [stencil, ha]
  dsimp only [bind, Except.bind]
  rcases hidle with hidle | hidle
  · rw [hidle]
    cases b.triangles <;> rfl
  · rw [hidle]
    cases ps.isEmpty <;> rfl

end Polygons

/-- A mesh none of whose triangles has an area counts as empty space in what it is combined with.
    A union, either way round, and what is left without it is the other operand, and what it has in
    common with the other one or is left of it is nothing. The stencil of it is the other operand
    only if it has no triangles; else that has its surface twice, once painted. -/
theorem combine_idle (ha : a.WellFormed) (hb : b.WellFormed) (hface : a.HasFace)
    (hidle : ¬b.HasFace) :
    (∀ op ∈ [Boolean.union, .xor], a.combine op b = .ok a ∧ b.combine op a = .ok a) ∧
    a.combine .difference b = .ok a ∧ b.combine .difference a = .ok .empty ∧
    a.combine .intersection b = .ok .empty ∧ b.combine .intersection a = .ok .empty ∧
    (b.triangles = [] → a.combine .stencil b = .ok a) ∧
    ∀ t ts, b.triangles = t :: ts → ∃ ps paint, a.polygons = .ok ps ∧
      b.vertexColor t.a = .ok paint ∧ a.combine .stencil b =
        .ok (ofPolygons (ps ++ ps.map fun p => { p with color := some paint })) := by
  obtain ⟨ps, hps, -, hpsiff⟩ := ha.exists_polygons
  obtain ⟨qs, hqs, -, hqsiff⟩ := hb.exists_polygons
  have hsome : ps.isEmpty = false := Bool.eq_false_iff.2 (mt hpsiff.1 (not_not.2 hface))
  obtain rfl := List.isEmpty_iff.1 (hqsiff.2 hidle)
  have hkept (m : Mesh α) : (if ps.isEmpty then m else a) = a := by
    rw [hsome, if_neg Bool.false_ne_true]
  refine ⟨List.forall_mem_cons.2 ⟨⟨?_, ?_⟩, List.forall_mem_singleton.2 ⟨?_, ?_⟩⟩, ?_, ?_, ?_, ?_,
    ?_, fun t ts htriangles => ?_⟩
  · rw [combine, union_eq hps hqs (.inr rfl), hkept]
  · exact union_eq hqs hps (.inl rfl)
  · rw [combine, xor_eq_left hps hqs rfl ha, hkept]
  · rw [combine, xor_eq_right hqs hps rfl, hkept]
  · rw [combine, difference_eq hps hqs (.inr rfl), hkept]
  · exact difference_eq hqs hps (.inl rfl)
  · exact intersection_eq hps hqs (.inr rfl)
  · exact intersection_eq hqs hps (.inl rfl)
  · exact fun htriangles => stencil_eq_self hps (.inr htriangles)
  · obtain ⟨paint, hpaint, -⟩ := (hb.reads_vertexColor (htriangles ▸ List.mem_cons_self :
      t ∈ b.triangles)).exists_ok
    -- A leaf keeps all polygons, and so does its complement.
    have hleaf : Tree.ofPolygons ([] : List (Polygon α)) = .ok .leaf := by rw [Tree.ofPolygons]
    exact ⟨ps, paint, hps, hpaint, stencil_eq hps hqs hsome hleaf htriangles hpaint⟩

/-- A triangle whose corners are on a line. -/
def thread : Mesh Float where
  vertices := #[⟨0.0, 0.0, 0.0⟩, ⟨1.0, 0.0, 0.0⟩, ⟨2.0, 0.0, 0.0⟩]
  triangles := [⟨0, 1, 2⟩]

/-- A well-formed mesh has an area if it is read as polygons. -/
theorem hasFace_iff {m : Mesh Float} (hm : m.WellFormed) (idle : Bool)
    (h : m.polygons.map (·.isEmpty) = .ok idle) : m.HasFace ↔ idle = false := by
  obtain ⟨ps, hps, -, hiff⟩ := hm.exists_polygons
  obtain ⟨ps', hps', rfl⟩ := map_eq_ok_iff.1 h
  obtain rfl : ps = ps' := Except.ok.inj (hps.symm.trans hps')
  rw [← not_iff_not, ← hiff, Bool.not_eq_false]

/-- Triangles of a cube have an area. -/
theorem hasFace_cube : (Primitive.cube : Mesh Float).HasFace :=
  (hasFace_iff Primitive.wellFormed_cube false (by decide +kernel)).2 rfl

/-- The triangle of a thread has none. -/
theorem not_hasFace_thread : ¬thread.HasFace :=
  mt (hasFace_iff (by decide) true (by decide +kernel)).1 (by decide)

/-- A cube is united with a thread to the cube. -/
theorem union_thread : thread.WellFormed ∧ ¬thread.HasFace ∧
    (Primitive.cube : Mesh Float).combine .union thread = .ok Primitive.cube := by
  have hthread : thread.WellFormed := by decide
  obtain ⟨hboth, -⟩ := combine_idle Primitive.wellFormed_cube hthread hasFace_cube
    not_hasFace_thread
  exact ⟨hthread, not_hasFace_thread, (hboth .union (by decide)).1⟩

/-- A cube with the stencil of a thread has twice as many triangles, and is painted. -/
theorem doubled_cube :
    (Primitive.cube : Mesh Float).WellFormed ∧ (Primitive.cube : Mesh Float).HasFace ∧
    thread.WellFormed ∧ ¬thread.HasFace ∧
    (Primitive.cube : Mesh Float).triangleCount = 12 ∧
    (Primitive.cube : Mesh Float).isPainted = false ∧
    ∃ m, (Primitive.cube : Mesh Float).combine .stencil thread = .ok m ∧ m.triangleCount = 24 ∧
      m.isPainted = true := by
  refine ⟨Primitive.wellFormed_cube, hasFace_cube, by decide, not_hasFace_thread,
    by decide +kernel, rfl, ?_⟩
  have hcounts : ((Primitive.cube : Mesh Float).combine .stencil thread).map
      (fun m => (m.triangleCount, m.isPainted)) = .ok (24, true) := by decide +kernel
  cases hm : (Primitive.cube : Mesh Float).combine .stencil thread with
  | error e =>
    rw [hm] at hcounts
    cases hcounts
  | ok m =>
    rw [hm] at hcounts
    obtain ⟨hcount, hpainted⟩ := Prod.ext_iff.1 (Except.ok.inj hcounts)
    exact ⟨m, rfl, hcount, hpainted⟩

end Mesh

end Solids
