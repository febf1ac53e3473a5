import Solids.Proofs.Mesh.Border
import Solids.Proofs.Mesh.Reads

/-!
# What a growing hull keeps

The surface of a hull (`surface`) is what its faces are without the points parked on them. Taking up
an apex replaces the patch that sees it by triangles over the rim of the patch (`surface_expand`,
`isBorder_rim`), and no point is forgotten that a face sees (`Settled`, `settled_expand`). What
holds of the first tetrahedron and is kept by every apex holds of the hull, on which no point is
parked (`grow_induction`).

* `Smooth.closed_expand`: whatever the numbers are, a closed hull stays closed if the apex is no
  corner yet, the rim does not touch itself and no new face has to be turned around.
-/

namespace Solids.Hull

variable {α : Type} [Scalar α] {cloud : Cloud α} {interior : Vec3 α} {fs : List (Face cloud)}
  {apex i j : cloud.Place}

/-! ## Parking -/

/-- The faces without the points parked on them. -/
def facets (fs : List (Face cloud)) : List (Facet cloud) := fs.map Face.toFacet

/-- No point is lost: it is parked, or no face sees it. -/
def Settled (fs : List (Face cloud)) (i : cloud.Place) : Prop :=
  i ∈ Face.parked fs ∨ ∀ f ∈ facets fs, f.sees i = false

/-- Parking a point changes no face otherwise. -/
theorem facets_park (i : cloud.Place) (fs : List (Face cloud)) :
    facets (Face.park i fs) = facets fs := by
  induction fs with
  | nil => rfl
  | cons f fs ih =>
    rw [Face.park]
    split
    · rfl
    · exact congrArg (f.toFacet :: ·) ih

/-- Parking points changes no face otherwise. -/
theorem facets_parkAll (fs : List (Face cloud)) (is : List cloud.Place) :
    facets (Face.parkAll fs is) = facets fs := by
  induction is generalizing fs with
  | nil => rfl
  | cons i is ih => exact (ih _).trans (facets_park i fs)

/-- A parked point stays parked. -/
theorem mem_parked_park (h : j ∈ Face.parked fs) (i : cloud.Place) :
    j ∈ Face.parked (Face.park i fs) := by
  induction fs with
  | nil => cases h
  | cons f fs ih =>
    rw [Face.park]
    rw [Face.parked, List.flatMap_cons, List.mem_append] at h
    split
    · rw [Face.parked, List.flatMap_cons, List.mem_append]
      exact h.imp_left (List.mem_append_left _)
    · rw [Face.parked, List.flatMap_cons, List.mem_append]
      exact h.imp_right ih

/-- A point is parked if there is a face that sees it. -/
theorem settled_park (i : cloud.Place) (fs : List (Face cloud)) : Settled (Face.park i fs) i := by
  induction fs with
  | nil => exact .inr (List.forall_mem_nil _)
  | cons f fs ih =>
    rw [Face.park]
    split
    · exact .inl (List.mem_append_left _ (List.mem_append_right _ List.mem_cons_self))
    · next hsees =>
      rcases ih with ih | ih
      · exact .inl (List.mem_append_right _ ih)
      · exact .inr (List.forall_mem_cons.2 ⟨Bool.eq_false_iff.2 hsees, ih⟩)

/-- A point that is not lost does not get lost by parking others. -/
theorem Settled.park (h : Settled fs j) (i : cloud.Place) : Settled (Face.park i fs) j := by
  rw [Settled, facets_park]
  exact h.imp_left fun hparked => mem_parked_park hparked i

/-- No point is lost that is parked, that no face sees, or that is to be parked. -/
theorem settled_parkAll {is : List cloud.Place} (h : Settled fs j ∨ j ∈ is) :
    Settled (Face.parkAll fs is) j := by
  induction is generalizing fs with
  | nil => exact h.resolve_right List.not_mem_nil
  | cons i is ih =>
    refine @ih (Face.park i fs) ?_
    rcases h with h | h
    · exact .inl (h.park i)
    · rcases List.mem_cons.1 h with rfl | h
      · exact .inl (settled_park j fs)
      · exact .inr h

/-! ## Growing -/

/-- The faces that see a point. -/
def patch (fs : List (Face cloud)) (apex : cloud.Place) : List (Face cloud) :=
  fs.filter fun f => f.sees apex

/-- The faces that do not see a point. -/
def rest (fs : List (Face cloud)) (apex : cloud.Place) : List (Face cloud) :=
  fs.filter fun f => !f.sees apex

/-- An apex leaves the faces that do not see it, and makes one of every edge of the rim of the
    others. -/
theorem facets_expand (interior : Vec3 α) (fs : List (Face cloud)) (apex : cloud.Place) :
    facets (expand interior fs apex) = facets (rest fs apex) ++
      (rim (patch fs apex)).map fun e => Facet.make interior ⟨e.1, e.2, apex⟩ := by
  refine (facets_parkAll _ _).trans ?_
  rw [facets, List.map_append, List.map_map]
  rfl

/-- The faces after an apex are those that do not see it, and the new ones. -/
theorem mem_facets_expand {f : Facet cloud} : f ∈ facets (expand interior fs apex) ↔
    (f ∈ facets fs ∧ f.sees apex = false) ∨
      ∃ e ∈ rim (patch fs apex), Facet.make interior ⟨e.1, e.2, apex⟩ = f := by
  rw [facets_expand, List.mem_append, List.mem_map]
  refine or_congr_left ?_
  have hfilter : facets (rest fs apex) = (facets fs).filter fun f => !f.sees apex := by
    rw [facets, facets, List.filter_map]
    rfl
  rw [hfilter, List.mem_filter, Bool.not_eq_true']

/-- No point is lost when an apex is taken up, but for the apex. -/
theorem settled_expand (h : i ∈ Face.parked fs) (hne : i ≠ apex) :
    Settled (expand interior fs apex) i := by
  obtain ⟨f, hf, hi⟩ := List.mem_flatMap.1 h
  refine settled_parkAll ?_
  by_cases hsees : f.sees apex
  · refine .inr (List.mem_filter.2 ⟨List.mem_flatMap.2 ⟨f, List.mem_filter.2 ⟨hf, hsees⟩, hi⟩, ?_⟩)
    exact bne_iff_ne.2 hne
  · refine .inl (.inl (List.mem_flatMap.2 ⟨f, List.mem_append_left _ ?_, hi⟩))
    exact List.mem_filter.2 ⟨hf, by simpa using hsees⟩

/-- There is a face that sees the next apex. -/
theorem exists_sees_of_apex? (h : apex? fs = some apex) :
    ∃ f ∈ facets fs, f.sees apex = true := by
  obtain ⟨f, hf, -⟩ := List.mem_flatMap.1 (mem_parked_visible h)
  obtain ⟨hf, hsees⟩ := List.mem_filter.1 hf
  exact ⟨f.toFacet, List.mem_map_of_mem hf, hsees⟩

/-- Without a next apex no point is parked. -/
theorem parked_eq_nil (h : apex? fs = none) : Face.parked fs = [] := by
  refine List.flatMap_eq_nil_iff.2 fun f hf => ?_
  have hnone := List.findSome?_eq_none_iff.1 h f hf
  have hsome : f.apex?.isSome = !f.outside.isEmpty := isSome_lastGreatest?
  rw [hnone] at hsome
  simpa using hsome

/-- What every apex keeps holds of a hull if it does at the start, and no point is parked on it. -/
theorem grow_induction {P : List (Face cloud) → Prop}
    (hstep : ∀ fs apex, P fs → apex? fs = some apex → P (expand interior fs apex)) (h : P fs) :
    P (grow interior fs) ∧ Face.parked (grow interior fs) = [] := by
  induction fs using grow.induct interior with
  | case1 fs hnone =>
    rw [grow, hnone]
    exact ⟨h, parked_eq_nil hnone⟩
  | case2 fs apex hsome ih =>
    rw [grow, hsome]
    exact ih (hstep fs apex h hsome)

/-! ## Surfaces -/

/-- The triangles of the faces. -/
def surface (fs : List (Face cloud)) : List (Triangle cloud.Place) := fs.map (·.corners)

/-- The place is a corner of a face. -/
def IsCorner (fs : List (Face cloud)) (i : cloud.Place) : Prop :=
  ∃ f ∈ facets fs, i ∈ f.corners.toList

/-- The edges of faces lead from corner to corner. -/
theorem isCorner_of_mem_edges {f : Facet cloud} (hf : f ∈ facets fs)
    {e : cloud.Place × cloud.Place} (he : e ∈ f.corners.edges) :
    IsCorner fs e.1 ∧ IsCorner fs e.2 :=
  Triangle.Over.of_mem_edges (Triangle.over_iff.2 fun _ hi => ⟨f, hf, hi⟩) he

/-- The surface does not depend on what is parked. -/
theorem surface_eq_map_facets (fs : List (Face cloud)) :
    surface fs = (facets fs).map (·.corners) := by
  rw [facets, List.map_map]
  rfl

/-- A list without its duplicates has none. -/
theorem nodup_eraseDups {β : Type} [BEq β] [LawfulBEq β] (xs : List β) : xs.eraseDups.Nodup := by
  induction hn : xs.length using Nat.strong_induction_on generalizing xs with
  | _ n ih =>
    subst hn
    cases xs with
    | nil => exact List.nodup_nil
    | cons x xs =>
      rw [List.eraseDups_cons, List.nodup_cons]
      refine ⟨fun hx => ?_, ih _ (Nat.lt_succ_of_le (List.length_filter_le _ _)) _ rfl⟩
      have hne := (List.mem_filter.1 (List.mem_eraseDups.1 hx)).2
      simp at hne

/-- The rim of faces is the border of their triangles. -/
theorem isBorder_rim (fs : List (Face cloud)) : IsBorder (rim fs) (surface fs) where
  nodup := (List.mergeSort_perm _ _).nodup_iff.2 (nodup_eraseDups _)
  mem_iff e := by
    rw [rim, List.mem_mergeSort, List.mem_eraseDups, List.mem_filter, surface, List.flatMap_map]
    simp

/-- The faces that see a point and those that do not are all faces. -/
theorem surface_patch_append_rest (fs : List (Face cloud)) (apex : cloud.Place) :
    (surface (patch fs apex) ++ surface (rest fs apex)).Perm (surface fs) := by
  rw [surface, surface, ← List.map_append]
  exact (List.filter_append_perm _ fs).map _

/-- At an edge of the rim a face that sees the apex meets one that does not. -/
theorem exists_of_mem_rim (h : Closed (surface fs)) {e : cloud.Place × cloud.Place}
    (he : e ∈ rim (patch fs apex)) : ∃ f ∈ facets fs, ∃ g ∈ facets fs,
      f.sees apex = true ∧ g.sees apex = false ∧
        e ∈ f.corners.edges ∧ e.swap ∈ g.corners.edges := by
  obtain ⟨hedge, hswap⟩ := ((isBorder_rim _).mem_iff e).1 he
  obtain ⟨t, ht, het⟩ := List.mem_flatMap.1 hedge
  obtain ⟨f, hf, rfl⟩ := List.mem_map.1 ht
  obtain ⟨hf, hsees⟩ := List.mem_filter.1 hf
  obtain ⟨u, hu, -, heu⟩ := h.exists_swap_mem _ (List.mem_map_of_mem hf) e het
  obtain ⟨g, hg, rfl⟩ := List.mem_map.1 hu
  refine ⟨f.toFacet, List.mem_map_of_mem hf, g.toFacet, List.mem_map_of_mem hg, hsees,
    Bool.eq_false_iff.2 fun hsees' => hswap ?_, het, heu⟩
  -- Otherwise the patch would have the edge in reverse, too.
  exact List.mem_flatMap.2 ⟨_, List.mem_map_of_mem (List.mem_filter.2 ⟨hg, hsees'⟩), heu⟩

/-- If no new face has to be turned around, an apex replaces the patch that sees it by triangles
    over the rim of the patch. -/
theorem surface_expand (h : ∀ e ∈ rim (patch fs apex),
      (Facet.make interior ⟨e.1, e.2, apex⟩).corners = ⟨e.1, e.2, apex⟩) :
    surface (expand interior fs apex) =
      surface (rest fs apex) ++ joined (rim (patch fs apex)) apex := by
  rw [surface_eq_map_facets, facets_expand, List.map_append, List.map_map,
    ← surface_eq_map_facets]
  exact congrArg (surface (rest fs apex) ++ ·) (List.map_congr_left h)

/-- An apex can be taken up without tearing the surface: it is no corner yet, no two edges of the
    rim of the patch that sees it start at one corner, and no face over the rim has to be turned
    around. -/
structure Smooth (interior : Vec3 α) (fs : List (Face cloud)) (apex : cloud.Place) : Prop where
  not_isCorner : ¬IsCorner fs apex
  nodup_starts : ((rim (patch fs apex)).map Prod.fst).Nodup
  corners_make : ∀ e ∈ rim (patch fs apex),
    (Facet.make interior ⟨e.1, e.2, apex⟩).corners = ⟨e.1, e.2, apex⟩

/-- A closed hull stays closed when an apex is taken up without tearing it. -/
theorem Smooth.closed_expand (h : Smooth interior fs apex) (hclosed : Closed (surface fs)) :
    Closed (surface (expand interior fs apex)) := by
  have hperm := surface_patch_append_rest fs apex
  rw [surface_expand h.corners_make]
  refine (hclosed.perm hperm.symm).replace (isBorder_rim _) (fun t ht hmem => ?_) h.nodup_starts
  obtain ⟨f, hf, rfl⟩ := List.mem_map.1 (hperm.mem_iff.1 ht)
  exact h.not_isCorner ⟨f.toFacet, List.mem_map_of_mem hf, hmem⟩

/-- The mesh of a closed hull is closed, as long as there are indices for its points. -/
theorem closed_toMesh (h : Closed (surface fs)) (hsize : cloud.size ≤ UInt32.size) :
    Closed (toMesh cloud fs).triangles := by
  have hover : ∀ t ∈ surface fs, t.Over (· ∈ usedPlaces cloud fs) :=
    List.forall_mem_map.2 fun f hf => Triangle.over_iff.2 fun i hi => mem_usedPlaces hf hi
  have hlength : (usedPlaces cloud fs).length ≤ cloud.size :=
    (List.length_filter_le _ _).trans_eq List.length_finRange
  have hmap : (toMesh cloud fs).triangles =
      (surface fs).map (.map fun i => ((usedPlaces cloud fs).idxOf i).toUInt32) := by
    rw [surface, List.map_map]
    rfl
  rw [hmap]
  refine h.map hover fun i j hi hj heq => ?_
  have hi' := List.idxOf_lt_length_of_mem hi
  have hj' := List.idxOf_lt_length_of_mem hj
  have hidx := congrArg UInt32.toNat heq
  rw [Mesh.toNat_toUInt32_of_lt (by omega), Mesh.toNat_toUInt32_of_lt (by omega)] at hidx
  exact (List.idxOf_inj hi).1 hidx

end Solids.Hull
