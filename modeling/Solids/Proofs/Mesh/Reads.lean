import Solids.Proofs.Alike.Walk
import Solids.Proofs.Mesh.Polygons
import Solids.Proofs.Mesh.Shapes

/-!
# Indices lead back to points

Rings, hulls and polygons are walked as lists of points, and the triangles of their meshes are over
indices. These lead back to the points that were walked, as long as there are not more vertices than
indices, so that a mesh which is read by index has the surface that was meant:

* sweeps stitch rings of one length (`Path.stitched_extrude` and the like), in which the point `j`
  of the ring `k` is the vertex `k * width + j` (`Sweep.getElem?_number`), and faces and caps are
  over these points (`Sweep.corners_of_mem_faces`);
* the faces of a hull are over its points (`Hull.corners_toMesh`);
* the triangles of polygons are the fans of their vertices (`Mesh.corners_ofPolygons`).

The corners of an outline are places of it by their type.
-/

namespace Solids

variable {α : Type}

namespace Mesh

/-- The corners of a triangle are found where its indices lead. -/
theorem corners_of_getElem? {m : Mesh α} {t : Triangle UInt32} {p : Triangle (Vec3 α)}
    (ha : m.vertices[t.a.toNat]? = some p.a) (hb : m.vertices[t.b.toNat]? = some p.b)
    (hc : m.vertices[t.c.toNat]? = some p.c) : m.corners t = .ok p := by
  have hvertex {i : UInt32} {v : Vec3 α} (h : m.vertices[i.toNat]? = some v) :
      m.vertex i = .ok v := by
    rw [vertex, h]
  rw [corners, Triangle.mapM, hvertex ha, hvertex hb, hvertex hc]
  rfl

/-- A place that 32 bits hold is its index. -/
theorem toNat_toUInt32_of_lt {i : Nat} (h : i < UInt32.size) : i.toUInt32.toNat = i :=
  Nat.mod_eq_of_lt h

end Mesh

variable [Scalar α]

/-! ## Rings -/

namespace Sweep

/-- The mesh is nothing, or stitched over rings of one length. -/
inductive Stitched : Mesh α → Prop
  | nothing : Stitched .empty
  | over {rings : List (List (Vec3 α))} (width : Nat) (closed : Bool) (ends : Ends α) :
      (∀ ring ∈ rings, ring.length = width) → Stitched (stitch rings closed ends)

omit [Scalar α] in
/-- The point `j` of the ring `k` is the vertex `k * width + j`. -/
theorem getElem?_number {rings : List (List (Vec3 α))} {width : Nat}
    (h : ∀ ring ∈ rings, ring.length = width) (start k j : Nat) :
    ((number start rings)[k]?.bind (·[j]?)) = (rings[k]?.bind (·[j]?)).map fun p =>
      ⟨(start + k * width + j).toUInt32, p⟩ := by
  induction rings generalizing start k with
  | nil => rfl
  | cons ring rings ih =>
    obtain ⟨hring, hrings⟩ := List.forall_mem_cons.1 h
    cases k with
    | zero =>
      simp only [number, List.getElem?_cons_zero, Option.bind_some, List.getElem?_map,
        List.getElem?_zipIdx, Option.map_map, Nat.zero_mul, Nat.add_zero]
      rfl
    | succ k =>
      have hplace : start + ring.length + k * width + j = start + (k + 1) * width + j := by
        rw [hring, Nat.succ_mul, Nat.add_comm (k * width), Nat.add_assoc start]
      simp only [number, List.getElem?_cons_succ, ih hrings, hplace]

omit [Scalar α] in
/-- A numbered point is found at its index. -/
theorem getElem?_of_mem_number {start : Nat} {rings : List (List (Vec3 α))}
    (hsize : start + rings.flatten.length ≤ UInt32.size) {ring : List (Vertex α)}
    (hring : ring ∈ number start rings) {v : Vertex α} (hv : v ∈ ring) :
    start ≤ v.index.toNat ∧ rings.flatten[v.index.toNat - start]? = some v.position := by
  induction rings generalizing start with
  | nil => cases hring
  | cons ps rings ih =>
    rw [List.flatten_cons, List.length_append] at hsize
    rcases List.mem_cons.1 hring with rfl | hring
    · obtain ⟨⟨p, i⟩, hi, rfl⟩ := List.mem_map.1 hv
      obtain ⟨hle, hget⟩ := List.mk_mem_zipIdx_iff_le_and_getElem?_sub.1 hi
      obtain ⟨hlt, _⟩ := List.getElem?_eq_some_iff.1 hget
      have hindex : i.toUInt32.toNat = i := Mesh.toNat_toUInt32_of_lt (by omega)
      dsimp only
      rw [hindex, List.flatten_cons, List.getElem?_append_left hlt]
      exact ⟨hle, hget⟩
    · -- The points of the other rings come after those of this one.
      obtain ⟨hle, hget⟩ := ih (by omega) hring
      rw [List.flatten_cons, List.getElem?_append_right (by omega), ← hget, Nat.sub_sub]
      exact ⟨by omega, rfl⟩

/-- The indices of a face over rings lead to its points. -/
theorem corners_of_mem_faces {rings : List (List (Vec3 α))} {closed : Bool} {ends : Ends α}
    (hsize : rings.flatten.length ≤ UInt32.size) {f : Triangle (Vertex α)}
    (hf : f ∈ faces (number 0 rings) closed ends) :
    Mesh.corners { vertices := rings.flatten.toArray } (f.map (·.index)) = .ok (positions f) := by
  have hover : f.Over fun v => rings.flatten[v.index.toNat]? = some v.position :=
    over_of_mem_faces (fun ring hring v hv =>
      (getElem?_of_mem_number (by omega) hring hv).2) hf
  simp only [← List.getElem?_toArray] at hover
  exact Mesh.corners_of_getElem? hover.1 hover.2.1 hover.2.2

/-- A rail has a direction at each of its points. -/
theorem length_tangents (rail : List (Vec3 α)) (closed : Bool) (fallback : Vec3 α) :
    (tangents rail closed fallback).length = rail.length := by
  have hfrom (last : Vec3 α) (xs : List (Option (Vec3 α) × Vec3 α × Option (Vec3 α))) :
      (tangentsFrom last xs).length = xs.length := by
    induction xs generalizing last with
    | nil => rfl
    | cons x xs ih => rw [tangentsFrom, List.length_cons, List.length_cons, ih]
  rw [tangents, hfrom, length_neighbors]

/-- A rail has a way to each of its points. -/
theorem length_travelled (walked : α) (rail : List (Vec3 α)) :
    (travelled walked rail).length = rail.length := by
  induction rail generalizing walked with
  | nil => rfl
  | cons p rail ih =>
    cases rail with
    | nil => rfl
    | cons q rest => rw [travelled, List.length_cons, ih, List.length_cons (a := p)]

/-- A profile has a turn for each direction. -/
theorem length_orientations (normal : Vec3 α) (directions : List (Vec3 α)) (align : Alignment) :
    (orientations normal directions align).length = directions.length := by
  have hcarried (turn : Rotation α) (previous : Vec3 α) :
      (carried turn previous directions).length = directions.length := by
    induction directions generalizing turn previous with
    | nil => rfl
    | cons t rest ih => rw [carried, List.length_cons, ih, List.length_cons]
  cases align with
  | follow => exact hcarried _ _
  | axis => exact List.length_map _
  | tangent => exact List.length_map _

/-- A row of segments that has one has one where a distance is walked. -/
theorem advance_ne_nil (target walked : α) {segments : List (Vec3 α × Vec3 α)}
    (h : segments ≠ []) : (advance target walked segments).1 ≠ [] := by
  induction segments generalizing walked with
  | nil => exact absurd rfl h
  | cons s segments ih =>
    cases segments with
    | nil => exact h
    | cons s' rest =>
      rw [advance]
      split
      · exact ih _ (List.cons_ne_nil _ _)
      · exact List.cons_ne_nil _ _

/-- There is a point for every distance. -/
theorem length_sample {segments : List (Vec3 α × Vec3 α)} (h : segments ≠ []) (walked : α)
    (targets : List α) : (sample segments walked targets).length = targets.length := by
  induction targets generalizing segments walked with
  | nil => rfl
  | cons target targets ih =>
    have hne := advance_ne_nil target walked h
    rw [sample]
    split
    · next s rest walked' _ => rw [List.length_cons, List.length_cons, ih (List.cons_ne_nil s rest)]
    · next hnil =>
      rw [hnil] at hne
      exact absurd rfl hne

/-- A line through points is resampled to the count that is asked for. -/
theorem length_resample {points : List (Vec3 α)} (h : 2 ≤ points.length) (closed : Bool)
    (count : Nat) : (resample points closed count).length = count := by
  have hsegments : steps closed points ≠ [] := by
    rw [← List.length_pos_iff]
    cases closed with
    | false =>
      rw [length_steps_false]
      omega
    | true =>
      rw [length_steps_true]
      omega
  rw [resample]
  split
  · next hcount => exact hcount
  · dsimp only
    split
    · obtain ⟨p, ps, rfl⟩ := List.exists_cons_of_length_pos (Nat.lt_of_lt_of_le Nat.two_pos h)
      exact List.length_replicate
    · rw [length_sample hsegments, List.length_map, List.length_range]

end Sweep

namespace Path

open Sweep (Stitched)

/-- A usable profile has two points. -/
theorem two_le_of_ring? {path : Path α} {r : List (Vec3 α) × Bool} (h : path.ring? = some r) :
    2 ≤ r.1.length := by
  unfold ring? at h
  split at h
  · cases h
  · obtain ⟨hle, h⟩ := Option.ite_none_right_eq_some.1 h
    cases h
    exact hle

/-- What is swept straight is stitched over rings of one length. -/
theorem stitched_extrude (profile : Path α) : Stitched profile.extrude := by
  unfold extrude
  split
  · exact .nothing
  · next points closed _ =>
    refine .over points.length _ _ fun ring hring => ?_
    simp only [List.mem_cons, List.not_mem_nil, or_false] at hring
    rcases hring with rfl | rfl <;> exact List.length_map _

/-- What is swept along a rail has a ring at each point of the rail, of the length of the profile,
    and caps if the profile is closed and the rail is not. -/
theorem exists_extrudeAlong_eq {profile rail : Path α} {points track : List (Vec3 α)}
    {closed railClosed : Bool} (hprofile : profile.ring? = some (points, closed))
    (hrail : rail.ring? = some (track, railClosed)) (twist : α) (align : Alignment) :
    ∃ rings ends, profile.extrudeAlong rail twist align = Sweep.stitch rings closed ends ∧
      rings.length = track.length ∧ (∀ ring ∈ rings, ring.length = points.length) ∧
      (closed = true → railClosed = false → ∃ start finish, ends = .capped start finish) := by
  have hdirections := Sweep.length_tangents track railClosed profile.faceNormal
  unfold extrudeAlong
  rw [hprofile, hrail]
  refine ⟨_, _, rfl, ?_, fun ring hring => ?_, fun hclosed hopen => ?_⟩
  · rw [List.length_map, List.length_zip, List.length_zip, Sweep.length_orientations, hdirections,
      Sweep.length_travelled, Nat.min_self, Nat.min_self]
  · obtain ⟨_, _, rfl⟩ := List.mem_map.1 hring
    exact List.length_map _
  · have hpos : 0 < (Sweep.tangents track railClosed profile.faceNormal).length := by
      rw [hdirections]
      exact Nat.lt_of_lt_of_le Nat.two_pos (two_le_of_ring? hrail)
    obtain ⟨t, ts, hts⟩ := List.exists_cons_of_length_pos hpos
    rw [hclosed, hopen] at *
    rw [hts, List.head?_cons, List.getLast?_cons]
    exact ⟨_, _, rfl⟩

/-- What is swept along a rail is stitched over rings of one length. -/
theorem stitched_extrudeAlong (profile rail : Path α) (twist : α) (align : Alignment) :
    Stitched (profile.extrudeAlong rail twist align) := by
  cases hprofile : profile.ring? with
  | none =>
    unfold extrudeAlong
    rw [hprofile]
    exact .nothing
  | some r =>
    cases hrail : rail.ring? with
    | none =>
      unfold extrudeAlong
      rw [hprofile, hrail]
      exact .nothing
    | some r' =>
      obtain ⟨rings, ends, heq, _, hlength, _⟩ :=
        exists_extrudeAlong_eq hprofile hrail twist align
      rw [heq]
      exact .over _ _ _ hlength

/-- What is revolved is stitched over rings of one length. -/
theorem stitched_of_lathe {profile : Path α} {segments : UInt32} {m : Mesh α}
    (h : profile.lathe segments = .ok m) : Stitched m := by
  unfold lathe at h
  dsimp only at h
  split at h
  · cases h
  · split at h
    · cases h
      exact .nothing
    · next points _ _ =>
      cases h
      refine .over points.length _ _ fun ring hring => ?_
      obtain ⟨_, _, rfl⟩ := List.mem_map.1 hring
      exact List.length_map _

/-- A tube through profiles is stitched over rings of one length. -/
theorem stitched_loft (profiles : List (Path α)) : Stitched (loft profiles) := by
  unfold loft
  dsimp only
  split
  · refine .over (((profiles.filterMap ring?).map (·.1.length)).foldl max 0) _ _
      fun ring hring => ?_
    obtain ⟨r, hr, rfl⟩ := List.mem_map.1 hring
    obtain ⟨path, _, hr⟩ := List.mem_filterMap.1 hr
    exact Sweep.length_resample (two_le_of_ring? hr) _ _
  · exact .nothing

end Path

/-! ## Hulls -/

/-- The indices of a hull's face lead to its corners. -/
theorem Hull.corners_toMesh {cloud : Hull.Cloud α} (hsize : cloud.size ≤ UInt32.size)
    {fs : List (Hull.Face cloud)} {f : Hull.Face cloud} (hf : f ∈ fs) :
    (toMesh cloud fs).corners (f.corners.map (usedPlaces cloud fs).idxOf).toIndices =
      .ok (f.corners.map cloud.point) := by
  have hcorner : f.corners.Over fun i =>
      ((usedPlaces cloud fs).map cloud.point).toArray[
        ((usedPlaces cloud fs).idxOf i).toUInt32.toNat]? = some (cloud.point i) := by
    refine Triangle.over_iff.2 fun i hi => ?_
    -- The face uses the corner, which therefore has a place among the vertices.
    have hlt := List.idxOf_lt_length_of_mem (mem_usedPlaces hf hi)
    have hle : (usedPlaces cloud fs).length ≤ cloud.size :=
      Nat.le_trans (List.length_filter_le _ _) (Nat.le_of_eq List.length_finRange)
    rw [Mesh.toNat_toUInt32_of_lt (by omega), List.getElem?_toArray, List.getElem?_map,
      List.getElem?_eq_getElem hlt, List.getElem_idxOf hlt]
    rfl
  exact Mesh.corners_of_getElem? hcorner.1 hcorner.2.1 hcorner.2.2

/-! ## Polygons -/

namespace Mesh

variable {β γ : Type}

omit [Scalar α] in
/-- What is found for each element of a list is found for the list. -/
theorem mapM_eq_ok_of_forall₂ {f : β → Except Fault γ} {xs : List β} {ys : List γ}
    (h : List.Forall₂ (fun x y => f x = .ok y) xs ys) : xs.mapM f = .ok ys := by
  induction h with
  | nil => rfl
  | cons hx _ ih =>
    rw [List.mapM_cons, hx, ih]
    rfl

omit [Scalar α] in
/-- What is found for a list is found for its elements. -/
theorem forall₂_of_mapM_eq_ok {f : β → Except Fault γ} {xs : List β} {ys : List γ}
    (h : xs.mapM f = .ok ys) : List.Forall₂ (fun x y => f x = .ok y) xs ys := by
  induction xs generalizing ys with
  | nil =>
    cases h
    exact .nil
  | cons x xs ih =>
    rw [List.mapM_cons] at h
    obtain ⟨y, hy, h⟩ := bind_eq_ok_iff.1 h
    obtain ⟨zs, hzs, h⟩ := bind_eq_ok_iff.1 h
    cases h
    exact .cons hy (ih hzs)

omit [Scalar α] in
/-- The places of a list between others lead to its elements. -/
theorem forall₂_range' (before xs after : List β) :
    List.Forall₂ (fun i x => (before ++ xs ++ after)[i]? = some x)
      (List.range' before.length xs.length) xs := by
  induction xs generalizing before with
  | nil => exact .nil
  | cons x xs ih =>
    have htail := ih (before ++ [x])
    rw [List.length_append, List.length_singleton, List.append_assoc before [x] xs] at htail
    exact .cons (by simp) htail

omit [Scalar α] in
/-- The triangles of polygons lead to the fans of their vertices, which come after others. -/
theorem forall₂_fanTriangles {m : Mesh α} (before : List (Vec3 α)) {ps : List (Polygon α)}
    (hvertices : m.vertices = (before ++ ps.flatMap (·.vertices)).toArray)
    (hsize : m.vertices.size ≤ UInt32.size) :
    List.Forall₂ (fun t p => m.corners t = .ok p) (fanTriangles before.length ps)
      (ps.flatMap fun p => fan p.vertices) := by
  -- The vertices of each polygon come before those of the polygons after it.
  induction ps generalizing before with
  | nil => exact .nil
  | cons p ps ih =>
    rw [List.flatMap_cons, ← List.append_assoc] at hvertices
    have htail := ih _ hvertices
    rw [List.length_append] at htail
    have hplaces : List.Forall₂ (fun i v => m.vertices[i.toUInt32.toNat]? = some v)
        (List.range' before.length p.vertices.length) p.vertices := by
      refine (forall₂_range' before p.vertices (ps.flatMap (·.vertices))).imp fun i v hv => ?_
      rw [← List.getElem?_toArray, ← hvertices] at hv
      obtain ⟨hlt, _⟩ := Array.getElem?_eq_some_iff.1 hv
      rwa [toNat_toUInt32_of_lt (Nat.lt_of_lt_of_le hlt hsize)]
    refine List.rel_append (List.forall₂_map_left_iff.2 ?_) htail
    exact (rel_fan hplaces).imp fun t p ht => corners_of_getElem? ht.1 ht.2.1 ht.2.2

omit [Scalar α] in
/-- The triangles of the mesh of polygons lead to the fans of their vertices. -/
theorem corners_ofPolygons {ps : List (Polygon α)}
    (hsize : (ofPolygons ps).vertexCount ≤ UInt32.size) :
    (ofPolygons ps).triangles.mapM (ofPolygons ps).corners =
      .ok (ps.flatMap fun p => fan p.vertices) :=
  mapM_eq_ok_of_forall₂ (forall₂_fanTriangles [] rfl hsize)

end Mesh

end Solids
