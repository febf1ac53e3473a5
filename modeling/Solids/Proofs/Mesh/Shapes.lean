import Solids.Hull
import Solids.Planar.Fill
import Solids.Primitive.Box
import Solids.Primitive.Round
import Solids.Proofs.Mesh.WellFormed
import Solids.Sweep.Extrude
import Solids.Sweep.Lathe
import Solids.Sweep.Loft

/-!
# Shapes are well formed

Every mesh that is made from parameters is well formed, whatever the parameters are: the primitives
in any number of segments, the sweeps of any profiles, fills and hulls. No coordinate has to be
trusted, since a triangle is only ever made of places of a list.

* Primitives and sweeps are made of fans and bands, which only name vertices of the rings that they
  cover.
* The corners of an outline and of a hull's faces are places by their type.
-/

namespace Solids

variable {α : Type} [Scalar α]

/-! ## Primitives -/

namespace Primitive

variable {P : Nat → Prop} {t : Triangle Nat}

/-- The unit cube is well formed. -/
theorem wellFormed_cube : (cube : Mesh α).WellFormed := by
  refine Mesh.wellFormed_ofPlaces ?_
  rw [List.size_toArray, List.length_map, List.length_range]
  simp only [Triangle.over_iff]
  decide

/-- The triangles of a floor are over its ring. -/
theorem over_of_mem_floor {ring : List Nat} (hring : ∀ i ∈ ring, P i) (ht : t ∈ floor ring) :
    t.Over P := by
  obtain ⟨s, hs, rfl⟩ := List.mem_map.1 ht
  exact Triangle.over_flip.2 (over_of_mem_fan hring hs)

/-- The triangles of a skirt are over its two rings. -/
theorem over_of_mem_skirt {upper lower : List Nat} (hupper : ∀ i ∈ upper, P i)
    (hlower : ∀ i ∈ lower, P i) (ht : t ∈ skirt upper lower) : t.Over P := by
  obtain ⟨s, hs, ht⟩ := List.mem_flatMap.1 ht
  obtain ⟨⟨hp, hp'⟩, hq, hq'⟩ := forall_mem_square hupper hlower hs
  refine over_of_mem_fan ?_ ht
  simp only [List.forall_mem_cons]
  exact ⟨hp, hp', hq', hq, fun _ h => absurd h List.not_mem_nil⟩

/-- A ring has as many vertices as segments. -/
@[simp] theorem length_ring (n : Nat) (radius height : α) : (ring n radius height).length = n := by
  rw [ring, List.length_map, List.length_range]

/-- The places of a ring are below those of all rings. -/
theorem lt_of_mem_places {n k i rings : Nat} (hk : k < rings) (hi : i ∈ places n k) :
    i < rings * n := by
  rw [places, List.mem_range'_1] at hi
  have hle : (k + 1) * n ≤ rings * n := Nat.mul_le_mul_right n hk
  rw [Nat.succ_mul] at hle
  omega

omit [Scalar α] in
/-- A mesh over rings is well formed if its triangles are over places of their vertices. -/
theorem wellFormed_overRings {rings : List (List (Vec3 α))} {ts : List (Triangle Nat)} {n : Nat}
    (hn : rings.flatten.length = n) (h : ∀ t ∈ ts, t.Over (· < n)) :
    (overRings rings ts).WellFormed := by
  subst hn
  exact Mesh.wellFormed_ofPlaces h

/-- Cylinders are well formed. -/
theorem wellFormed_of_cylinder {segments : UInt32} {m : Mesh α} (h : cylinder segments = .ok m) :
    m.WellFormed := by
  unfold cylinder at h
  dsimp only at h
  split at h
  · cases h
  · cases h
    have hlower : ∀ i ∈ places segments.toNat 0, i < 2 * segments.toNat :=
      fun i => lt_of_mem_places Nat.two_pos
    have hupper : ∀ i ∈ places segments.toNat 1, i < 2 * segments.toNat :=
      fun i => lt_of_mem_places Nat.one_lt_two
    refine wellFormed_overRings (n := 2 * segments.toNat) ?_ fun t ht => ?_
    · simp [Nat.two_mul]
    · rcases List.mem_append.1 ht with ht | ht
      · rcases List.mem_append.1 ht with ht | ht
        · exact over_of_mem_band hlower hupper ht
        · exact over_of_mem_floor hlower ht
      · exact over_of_mem_fan hupper ht

/-- Cones are well formed. -/
theorem wellFormed_of_cone {segments : UInt32} {m : Mesh α} (h : cone segments = .ok m) :
    m.WellFormed := by
  unfold cone at h
  dsimp only at h
  split at h
  · cases h
  · cases h
    have hbase : ∀ i ∈ places segments.toNat 0, i < segments.toNat + 1 := by
      intro i hi
      have hlt := lt_of_mem_places Nat.one_pos hi
      omega
    refine wellFormed_overRings (n := segments.toNat + 1) ?_ fun t ht => ?_
    · simp
    · rcases List.mem_append.1 ht with ht | ht
      · obtain ⟨s, hs, rfl⟩ := List.mem_map.1 ht
        obtain ⟨h₁, h₂⟩ := mem_of_mem_steps hs
        exact ⟨hbase _ h₁, hbase _ h₂, Nat.lt_succ_self _⟩
      · exact over_of_mem_floor hbase ht

/-- The rings of a sphere have `n` vertices each. -/
theorem length_sphereRings (n rings : Nat) :
    ((List.range rings).map (sphereRing (α := α) n rings)).flatten.length = rings * n := by
  have hlengths : (List.range rings).map (List.length ∘ sphereRing (α := α) n rings) =
      List.replicate rings n := by
    refine List.eq_replicate_iff.2 ⟨by simp, List.forall_mem_map.2 fun i _ => ?_⟩
    exact length_ring n _ _
  rw [List.length_flatten, List.map_map, hlengths, List.sum_replicate_nat]

/-- A sphere over any rings is well formed. -/
theorem wellFormed_sphereOver (n : Nat) {rings : Nat} (hrings : 0 < rings) :
    (sphereOver n rings : Mesh α).WellFormed := by
  have hplaces (k : Nat) (hk : k < rings) : ∀ i ∈ places n k, i < rings * n :=
    fun i => lt_of_mem_places hk
  refine wellFormed_overRings (length_sphereRings n rings) fun t ht => ?_
  rcases List.mem_append.1 ht with ht | ht
  · rcases List.mem_append.1 ht with ht | ht
    · exact over_of_mem_fan (hplaces 0 hrings) ht
    · obtain ⟨i, hi, ht⟩ := List.mem_flatMap.1 ht
      have hlast := List.mem_range.1 hi
      exact over_of_mem_skirt (hplaces i (by omega)) (hplaces (i + 1) (by omega)) ht
  · exact over_of_mem_floor (hplaces (rings - 1) (by omega)) ht

/-- Spheres are well formed. There is none in the greatest number of segments. -/
theorem safe_sphere (segments : UInt32) :
    Safe (sphere segments) fun r => ∀ m : Mesh α, r = .ok m → m.WellFormed := by
  unfold sphere
  split
  · exact fun m hm => by cases hm
  · next hsegments =>
    refine ((safe_checkedSum segments 1).bind (Q := (0 < ·)) fun k hk => ?_).bind ?_
    · have hmin : minSegments = 3 := rfl
      have hone : (1 : UInt32).toNat = 1 := rfl
      change 0 < k.toNat / 2
      omega
    · intro rings hrings m hm
      cases hm
      exact wellFormed_sphereOver _ hrings

end Primitive

/-! ## Sweeps -/

namespace Sweep

omit [Scalar α] in
/-- Rings are numbered within the places of all their points. -/
theorem lt_of_mem_number {start : Nat} {rings : List (List (Vec3 α))} {ring : List (Vertex α)}
    (hring : ring ∈ number start rings) {v : Vertex α} (hv : v ∈ ring) :
    v.index.toNat < start + rings.flatten.length := by
  induction rings generalizing start with
  | nil => cases hring
  | cons ps rings ih =>
    rw [List.flatten_cons, List.length_append]
    rcases List.mem_cons.1 hring with rfl | hring
    · obtain ⟨⟨p, i⟩, hi, rfl⟩ := List.mem_map.1 hv
      have hlt := List.snd_lt_add_of_mem_zipIdx hi
      have hle := toNat_toUInt32_le i
      change i.toUInt32.toNat < _
      omega
    · have hlt := ih hring
      omega

section Faces

variable {P : Vertex α → Prop} {rings : List (List (Vertex α))}
  (hrings : ∀ ring ∈ rings, ∀ v ∈ ring, P v)
include hrings

/-- Caps are over the vertices of the rings. -/
theorem over_of_mem_caps {ends : Ends α} {t : Triangle (Vertex α)} (ht : t ∈ caps rings ends) :
    t.Over P := by
  have hcap (ring : List (Vertex α)) (hring : ring ∈ rings) (direction : Vec3 α) (atEnd : Bool)
      (ht : t ∈ cap ring.toArray direction atEnd) : t.Over P := by
    obtain ⟨s, _, rfl⟩ := List.mem_map.1 ht
    have hvertex (i : (outlineOf ring.toArray direction).Corner) :
        P (vertexAt ring.toArray direction i) :=
      hrings ring hring _ (Array.mem_toList_iff.2 (Array.getElem_mem _))
    exact ⟨hvertex _, hvertex _, hvertex _⟩
  unfold caps at ht
  split at ht
  · split at ht
    · next first last hfirst hlast =>
      rcases List.mem_append.1 ht with ht | ht
      · exact hcap first (List.mem_of_head? hfirst) _ _ ht
      · exact hcap last (List.mem_of_getLast? hlast) _ _ ht
    · cases ht
  · cases ht

/-- All faces are over the vertices of the rings. -/
theorem over_of_mem_faces {closed : Bool} {ends : Ends α} {t : Triangle (Vertex α)}
    (ht : t ∈ faces rings closed ends) : t.Over P := by
  have hjoint {joined : Bool} {s : List (Vertex α) × List (Vertex α)}
      (hs : s ∈ steps joined rings) (ht : t ∈ band closed s.1 s.2) : t.Over P := by
    obtain ⟨h₁, h₂⟩ := mem_of_mem_steps hs
    exact over_of_mem_band (hrings _ h₁) (hrings _ h₂) ht
  rcases List.mem_append.1 ht with ht | ht
  · obtain ⟨s, hs, hband⟩ := List.mem_flatMap.1 ht
    split at hs
    · exact hjoint hs hband
    · exact hjoint hs hband
  · exact over_of_mem_caps hrings ht

end Faces

/-- What is stitched is well formed. -/
theorem wellFormed_stitch (rings : List (List (Vec3 α))) (closed : Bool) (ends : Ends α) :
    (stitch rings closed ends).WellFormed := by
  unfold stitch
  split
  · exact Mesh.wellFormed_empty
  · have hmesh : Mesh.WellFormed { vertices := rings.flatten.toArray
                                   triangles := ((faces (number 0 rings) closed ends).filter
                                     fun f => (positions f).hasArea).map (·.map (·.index)) } := by
      refine ⟨List.forall_mem_map.2 fun t ht => ?_, fun _ h => by cases h⟩
      rw [Triangle.over_map]
      refine over_of_mem_faces (fun ring hring v hv => ?_) (List.mem_of_mem_filter ht)
      rw [List.size_toArray, ← Nat.zero_add rings.flatten.length]
      exact lt_of_mem_number hring hv
    dsimp only
    split
    · exact hmesh.flip
    · exact hmesh

end Sweep

namespace Path

/-- Profiles swept straight are well formed. -/
theorem wellFormed_extrude (profile : Path α) : profile.extrude.WellFormed := by
  unfold extrude
  split
  · exact Mesh.wellFormed_empty
  · exact Sweep.wellFormed_stitch _ _ _

/-- Profiles swept along a rail are well formed. -/
theorem wellFormed_extrudeAlong (profile rail : Path α) (twist : α) (align : Alignment) :
    (profile.extrudeAlong rail twist align).WellFormed := by
  unfold extrudeAlong
  split
  · exact Sweep.wellFormed_stitch _ _ _
  · exact Mesh.wellFormed_empty

/-- Lathes are well formed. -/
theorem wellFormed_of_lathe {profile : Path α} {segments : UInt32} {m : Mesh α}
    (h : profile.lathe segments = .ok m) : m.WellFormed := by
  unfold lathe at h
  dsimp only at h
  split at h
  · cases h
  · split at h
    · cases h
      exact Mesh.wellFormed_empty
    · cases h
      exact Sweep.wellFormed_stitch _ _ _

/-- Lofts are well formed. -/
theorem wellFormed_loft (profiles : List (Path α)) : (loft profiles).WellFormed := by
  unfold loft
  dsimp only
  split
  · exact Sweep.wellFormed_stitch _ _ _
  · exact Mesh.wellFormed_empty

/-! ## Fills -/

/-- Fills are well formed. -/
theorem wellFormed_fill (path : Path α) : path.fill.WellFormed := by
  unfold fill
  split
  · exact Mesh.wellFormed_empty
  · dsimp only
    split
    · exact Mesh.wellFormed_empty
    · refine ⟨fun t ht => ?_, fun _ h => by cases h⟩
      obtain ⟨f, hf, ht⟩ := List.mem_flatMap.1 ht
      obtain ⟨s, _, rfl⟩ := List.mem_map.1 hf
      have hs : (s.map Fin.val).Over (· < path.flattened.dropLast.toArray.size) := by
        rw [← Outline.size_ofPoints path.flattened.dropLast.toArray path.faceNormal]
        exact ⟨s.a.isLt, s.b.isLt, s.c.isLt⟩
      have hfront := Triangle.over_toIndices hs
      rcases List.mem_cons.1 ht with rfl | ht
      · exact hfront
      · rw [List.mem_singleton.1 ht]
        exact Triangle.over_flip.2 hfront

end Path

/-! ## Hulls -/

namespace Hull

/-- A further point is taken up in a cloud if it is apart from all points that were. -/
theorem distinct_concat (points : List (Vec3 α)) (p : Vec3 α) :
    distinct (points ++ [p]) =
      if (distinct points).all fun k => tolerance ≤ k.distance p then (distinct points).push p
      else distinct points :=
  List.foldl_append

/-- The points that a hull is made of are among the given ones. -/
theorem mem_of_mem_distinct {points : List (Vec3 α)} {p : Vec3 α} (hp : p ∈ distinct points) :
    p ∈ points := by
  induction points using List.reverseRecOn with
  | nil => exact absurd hp (Array.not_mem_empty p)
  | append_singleton points q ih =>
    rw [distinct_concat] at hp
    split at hp
    · rcases Array.mem_push.1 hp with hp | rfl
      · exact List.mem_append_left _ (ih hp)
      · exact List.mem_append_right _ (List.mem_singleton_self p)
    · exact List.mem_append_left _ (ih hp)

/-- A cloud has no more points than are given. -/
theorem size_distinct_le (points : List (Vec3 α)) :
    (distinct points).size ≤ points.length := by
  induction points using List.reverseRecOn with
  | nil => exact Nat.le_refl 0
  | append_singleton points p ih =>
    rw [distinct_concat, List.length_append, List.length_singleton]
    split
    · rw [Array.size_push]
      exact Nat.succ_le_succ ih
    · exact Nat.le_succ_of_le ih

end Hull

/-- The corners of a face are used places. -/
theorem Hull.mem_usedPlaces {cloud : Hull.Cloud α} {fs : List (Hull.Face cloud)}
    {f : Hull.Face cloud} (hf : f ∈ fs) {i : cloud.Place} (hi : i ∈ f.corners.toList) :
    i ∈ usedPlaces cloud fs := by
  refine List.mem_filter.2 ⟨List.mem_finRange i, List.any_eq_true.2 ⟨f, hf, ?_⟩⟩
  exact List.contains_iff_mem.2 hi

/-- The mesh of a hull's faces is well formed: a corner of a face is one of the used places. -/
theorem Hull.wellFormed_toMesh {cloud : Hull.Cloud α} (fs : List (Hull.Face cloud)) :
    (Hull.toMesh cloud fs).WellFormed := by
  unfold Hull.toMesh
  dsimp only
  have hplaces : ∀ t ∈ fs.map fun f => f.corners.map (Hull.usedPlaces cloud fs).idxOf,
      t.Over (· < ((Hull.usedPlaces cloud fs).map cloud.point).toArray.size) := by
    refine List.forall_mem_map.2 fun f hf => Triangle.over_iff.2 ?_
    rw [Triangle.toList_map]
    refine List.forall_mem_map.2 fun i hi => ?_
    have hlt := List.idxOf_lt_length_of_mem (Hull.mem_usedPlaces hf hi)
    simpa only [List.size_toArray, List.length_map] using hlt
  have hmesh := Mesh.wellFormed_ofPlaces hplaces
  rwa [List.map_map] at hmesh

/-- The hull of points is what grows out of a first tetrahedron. -/
theorem exists_seed_of_convexHull {points : List (Vec3 α)} {m : Mesh α}
    (h : convexHull points = .ok m) : ∃ first seed,
      Hull.seed (Hull.distinct points) first = .ok seed ∧
        m = Hull.toMesh _ (Hull.grow seed.center seed.faces) := by
  unfold convexHull at h
  dsimp only at h
  split at h
  · cases h
  · cases hseed : Hull.seed (Hull.distinct points) ⟨0, by omega⟩ with
    | error e =>
      rw [hseed] at h
      cases h
    | ok seed =>
      rw [hseed] at h
      cases h
      exact ⟨_, seed, hseed, rfl⟩

/-- Hulls of points are well formed. -/
theorem wellFormed_of_convexHull {points : List (Vec3 α)} {m : Mesh α}
    (h : convexHull points = .ok m) : m.WellFormed := by
  obtain ⟨_, seed, -, rfl⟩ := exists_seed_of_convexHull h
  exact Hull.wellFormed_toMesh _

/-- Hulls of points and meshes are well formed. -/
theorem wellFormed_of_hullOf {points : List (Vec3 α)} {meshes : List (Mesh α)} {m : Mesh α}
    (h : hullOf points meshes = .ok m) : m.WellFormed := by
  unfold hullOf at h
  dsimp only at h
  split at h
  · cases h
    exact Mesh.wellFormed_empty
  · exact wellFormed_of_convexHull h

end Solids
