import Solids.Proofs.Hull.Growth

/-!
# Hulls select points

A hull is made of some of the points that are given, and adds none. Two selections lead to it. Going
through the points in order, one is kept if it is apart from all that were kept before
(`Hull.Thins`); there is one way to do so, and it gives the cloud (`Hull.exists_thins`). The corners
of the faces that the growth ends with become vertices in the order of the cloud
(`Hull.vertices_toMesh_sublist`), and the triangles are over their indices
(`Hull.exists_triangle_of_lt`, `Hull.mapM_corners_toMesh`).

* `convexHull_selects`: what a hull has of the points that it was asked for, whatever the numbers
  are.
-/

namespace Solids

variable {α : Type} [Scalar α]

namespace Hull

/-! ## Thinning out -/

/-- The numbered points that are kept of a list: they are apart from each other, and each of the
    others is near to one before it that is kept. -/
structure Thins (points : List (Vec3 α)) (kept : List (Vec3 α × ℕ)) : Prop where
  sublist : kept.Sublist points.zipIdx
  apart : kept.Pairwise fun p q => tolerance ≤ p.1.distance q.1
  near : ∀ q ∈ points.zipIdx, q ∉ kept →
    ∃ p ∈ kept, p.2 < q.2 ∧ ¬tolerance ≤ p.1.distance q.1

/-- A further numbered point is kept if it is apart from all that are. -/
def keeping (kept : List (Vec3 α × ℕ)) (q : Vec3 α × ℕ) : List (Vec3 α × ℕ) :=
  if ∀ p ∈ kept, tolerance ≤ p.1.distance q.1 then kept ++ [q] else kept

variable {points : List (Vec3 α)} {p : Vec3 α} {kept : List (Vec3 α × ℕ)}

/-- A further element does not change the numbers of those before it. -/
theorem zipIdx_concat {β : Type} (xs : List β) (x : β) :
    (xs ++ [x]).zipIdx = xs.zipIdx ++ [(x, xs.length)] := by
  rw [List.zipIdx_append, Nat.zero_add]
  rfl

/-- The number of a kept point is that of a place in the list. -/
theorem Thins.lt_length (h : Thins points kept) {q : Vec3 α × ℕ} (hq : q ∈ kept) :
    q.2 < points.length :=
  List.snd_lt_of_mem_zipIdx (h.sublist.subset hq)

/-- What is kept of a longer list, if it is decided as it was for the points before the last. -/
theorem Thins.concat (h : Thins points kept) (p : Vec3 α) :
    Thins (points ++ [p]) (keeping kept (p, points.length)) := by
  unfold keeping
  split
  · next hapart =>
    refine ⟨?_, ?_, fun q hq hdropped => ?_⟩
    · rw [zipIdx_concat]
      exact h.sublist.append (.refl _)
    · refine List.pairwise_append.2 ⟨h.apart, List.pairwise_singleton _ _, fun k hk q hq => ?_⟩
      rw [List.mem_singleton.1 hq]
      exact hapart k hk
    · rw [List.mem_append, not_or] at hdropped
      rw [zipIdx_concat, List.mem_append] at hq
      obtain ⟨k, hk, hnear⟩ := h.near q (hq.resolve_right hdropped.2) hdropped.1
      exact ⟨k, List.mem_append_left _ hk, hnear⟩
  · next hnear =>
    push Not at hnear
    refine ⟨?_, h.apart, fun q hq hdropped => ?_⟩
    · rw [zipIdx_concat]
      exact h.sublist.trans (List.sublist_append_left _ _)
    · rw [zipIdx_concat, List.mem_append] at hq
      rcases hq with hq | hq
      · exact h.near q hq hdropped
      · rw [List.mem_singleton.1 hq]
        obtain ⟨k, hk, hlt⟩ := hnear
        exact ⟨k, hk, h.lt_length hk, hlt⟩

/-- What is kept of a longer list is decided by what is kept of the points before the last. -/
theorem Thins.exists_of_concat (h : Thins (points ++ [p]) kept) :
    ∃ before, Thins points before ∧ kept = keeping before (p, points.length) := by
  have hsub := h.sublist
  rw [zipIdx_concat] at hsub
  obtain ⟨before, last, rfl, hbefore, hlast⟩ := List.sublist_append_iff.1 hsub
  -- The last point has a greater number than all others.
  have hnotlast {q : Vec3 α × ℕ} (hq : q.2 < points.length) : q ∉ last := fun hmem => by
    rw [List.mem_singleton.1 (hlast.subset hmem)] at hq
    exact Nat.lt_irrefl _ hq
  have hthins : Thins points before := by
    refine ⟨hbefore, (List.pairwise_append.1 h.apart).1, fun q hq hdropped => ?_⟩
    have hlt : q.2 < points.length := List.snd_lt_of_mem_zipIdx hq
    obtain ⟨k, hk, hbelow, hnear⟩ := h.near q (zipIdx_concat points p ▸ List.mem_append_left _ hq)
      fun hmem => (List.mem_append.1 hmem).elim hdropped (hnotlast hlt)
    exact ⟨k, (List.mem_append.1 hk).resolve_right (hnotlast (hbelow.trans hlt)), hbelow, hnear⟩
  refine ⟨before, hthins, ?_⟩
  -- The last point is dropped, for one that it is near to, or kept, as it is apart from all.
  rcases List.sublist_singleton.1 hlast with rfl | rfl
  · rw [List.append_nil] at h ⊢
    have hdropped : (p, points.length) ∉ before := fun hp => Nat.lt_irrefl _ (hthins.lt_length hp)
    obtain ⟨k, hk, -, hnear⟩ := h.near (p, points.length) (by simp [zipIdx_concat]) hdropped
    rw [keeping, if_neg fun hapart => hnear (hapart k hk)]
  · have hapart := (List.pairwise_append.1 h.apart).2.2
    rw [keeping, if_pos fun k hk => hapart k hk _ (List.mem_singleton_self _)]

/-- There is one way to thin out a list of points, and it gives the cloud. -/
theorem exists_thins (points : List (Vec3 α)) : ∃ kept, Thins points kept ∧
    (∀ other, Thins points other → other = kept) ∧
    (distinct points).toList = kept.map Prod.fst := by
  induction points using List.reverseRecOn with
  | nil =>
    refine ⟨[], ⟨.refl _, .nil, fun _ hq => nomatch hq⟩, fun other h => ?_, rfl⟩
    exact List.sublist_nil.1 h.sublist
  | append_singleton points p ih =>
    obtain ⟨kept, hkept, hunique, hcloud⟩ := ih
    refine ⟨keeping kept (p, points.length), hkept.concat p, fun other h => ?_, ?_⟩
    · obtain ⟨before, hbefore, rfl⟩ := h.exists_of_concat
      rw [hunique before hbefore]
    · have hall : ((distinct points).all fun k => tolerance ≤ k.distance p) = true ↔
          ∀ k ∈ kept, tolerance ≤ k.1.distance p := by
        simp [← Array.all_toList, hcloud]
      rw [distinct_concat, keeping]
      by_cases hapart : ∀ k ∈ kept, tolerance ≤ k.1.distance p
      · rw [if_pos (hall.2 hapart), if_pos hapart, Array.toList_push, hcloud, List.map_append]
        rfl
      · rw [if_neg (hall.not.2 hapart), if_neg hapart, hcloud]

/-- The points of a cloud are apart from each other. -/
theorem pairwise_distinct (points : List (Vec3 α)) :
    (distinct points).toList.Pairwise fun p q => tolerance ≤ p.distance q := by
  obtain ⟨kept, hkept, -, hcloud⟩ := exists_thins points
  rw [hcloud, List.pairwise_map]
  exact hkept.apart

/-- A cloud has its points in the order in which they are given. -/
theorem distinct_sublist (points : List (Vec3 α)) : (distinct points).toList.Sublist points := by
  obtain ⟨kept, hkept, -, hcloud⟩ := exists_thins points
  have hsub := hkept.sublist.map Prod.fst
  rwa [← hcloud, List.zipIdx_map_fst] at hsub

/-- A point that is given is in the cloud, or near to a point of it. -/
theorem mem_distinct_or_near (hp : p ∈ points) :
    p ∈ distinct points ∨ ∃ q ∈ distinct points, ¬tolerance ≤ q.distance p := by
  obtain ⟨kept, hkept, -, hcloud⟩ := exists_thins points
  have hmem {q : Vec3 α × ℕ} (hq : q ∈ kept) : q.1 ∈ distinct points :=
    Array.mem_toList_iff.1 (hcloud ▸ List.mem_map_of_mem hq)
  obtain ⟨⟨q, i⟩, hq, rfl⟩ := List.mem_map.1 ((List.zipIdx_map_fst 0 points).symm ▸ hp)
  by_cases hkeep : (q, i) ∈ kept
  · exact .inl (hmem hkeep)
  · obtain ⟨k, hk, -, hnear⟩ := hkept.near _ hq hkeep
    exact .inr ⟨k.1, hmem hk, hnear⟩

/-! ## Vertices and triangles -/

variable {cloud : Cloud α} (fs : List (Face cloud))

/-- The vertices of a hull have the order of the cloud. -/
theorem vertices_toMesh_sublist : (toMesh cloud fs).vertices.toList.Sublist cloud.toList := by
  have hcloud : cloud.toList = (List.finRange cloud.size).map cloud.point :=
    (List.map_get_finRange cloud.toList).symm
  rw [hcloud]
  exact List.filter_sublist.map _

/-- The index of every vertex of a hull is a corner of a triangle. -/
theorem exists_triangle_of_lt {k : ℕ} (hk : k < (toMesh cloud fs).vertexCount) :
    ∃ t ∈ (toMesh cloud fs).triangles, k.toUInt32 ∈ t.toList := by
  have hlt : k < (usedPlaces cloud fs).length := by
    simpa [toMesh, Mesh.vertexCount] using hk
  have hnodup : (usedPlaces cloud fs).Nodup := (List.nodup_finRange _).filter _
  obtain ⟨f, hf, hcorner⟩ := List.any_eq_true.1 (List.mem_filter.1 (List.getElem_mem hlt)).2
  refine ⟨_, List.mem_map_of_mem hf, ?_⟩
  rw [Triangle.toIndices, Triangle.toList_map, Triangle.toList_map, List.map_map]
  refine List.mem_map.2 ⟨_, List.contains_iff_mem.1 hcorner, ?_⟩
  rw [Function.comp_apply, hnodup.idxOf_getElem k hlt]

/-- The triangles of a hull have the corners of its faces, as long as there are indices for the
    points. -/
theorem mapM_corners_toMesh (hsize : cloud.size ≤ UInt32.size) :
    (toMesh cloud fs).triangles.mapM (toMesh cloud fs).corners =
      .ok ((surface fs).map (.map cloud.point)) := by
  refine Mesh.mapM_eq_ok_of_forall₂ ?_
  rw [surface, List.map_map]
  exact List.forall₂_map_left_iff.2 (List.forall₂_map_right_iff.2
    (List.forall₂_same.2 fun f hf => corners_toMesh hsize hf))

end Hull

/-! ## Selection -/

/-- A hull selects points. Its vertices are some of the given points in their order, each apart from
    those before it. The index of each is a corner of a triangle, no triangle has another corner,
    and the mesh is not painted. The vertices are among the points that are kept if the given ones
    are thinned out, for which there is one way, and in which a point is dropped only for one before
    it that is kept. The triangles connect the same points as the faces at the end of the growth, as
    long as there are indices for the points. -/
theorem convexHull_selects {points : List (Vec3 α)} {m : Mesh α} (h : convexHull points = .ok m) :
    m.vertices.toList.Sublist points ∧
    (m.vertices.toList.Pairwise fun p q => tolerance ≤ p.distance q) ∧
    (∀ k < m.vertexCount, ∃ t ∈ m.triangles, k.toUInt32 ∈ t.toList) ∧
    (∀ t ∈ m.triangles, t.Over fun i => i.toNat < m.vertexCount) ∧
    m.colors = none ∧
    (∃ kept, Hull.Thins points kept ∧ (∀ other, Hull.Thins points other → other = kept) ∧
      (Hull.distinct points).toList = kept.map Prod.fst ∧
      m.vertices.toList.Sublist (kept.map Prod.fst)) ∧
    ∃ first seed, Hull.seed (Hull.distinct points) first = .ok seed ∧
      ((Hull.distinct points).size ≤ UInt32.size → m.triangles.mapM m.corners =
        .ok ((Hull.surface (Hull.grow seed.center seed.faces)).map
          (.map (Hull.distinct points).point))) := by
  obtain ⟨first, seed, hseed, rfl⟩ := exists_seed_of_convexHull h
  have hcloud := Hull.vertices_toMesh_sublist (Hull.grow seed.center seed.faces)
  obtain ⟨kept, hkept, hunique, hdistinct⟩ := Hull.exists_thins points
  exact ⟨hcloud.trans (Hull.distinct_sublist points),
    (Hull.pairwise_distinct points).sublist hcloud, fun k hk => Hull.exists_triangle_of_lt _ hk,
    (wellFormed_of_convexHull h).corner_lt, rfl,
    ⟨kept, hkept, hunique, hdistinct, hdistinct ▸ hcloud⟩, first, seed, hseed,
    Hull.mapM_corners_toMesh _⟩

/-- The corners of a tetrahedron, a point next to the first of them, a point inside and one that is
    nowhere. -/
def speckled : List (Vec3 Float) :=
  [⟨0.0, 0.0, 0.0⟩, ⟨1.0, 0.0, 0.0⟩, ⟨0.0, 1e-11, 0.0⟩, ⟨0.0, 1.0, 0.0⟩, ⟨0.125, 0.125, 0.125⟩,
    ⟨0.0, 0.0 / 0.0, 0.0⟩, ⟨0.0, 0.0, 1.0⟩]

/-- Two of the points are dropped. -/
theorem size_distinct_speckled : (Hull.distinct speckled).size = 5 := by decide +kernel

/-- Five of the points are kept, and four of these are vertices of the hull. -/
theorem convexHull_selects_speckled : (Hull.distinct speckled).size = 5 ∧
    ∃ m, convexHull speckled = .ok m ∧ m.vertexCount = 4 ∧ m.vertices.toList.Sublist speckled ∧
      (∀ k < 4, ∃ t ∈ m.triangles, k.toUInt32 ∈ t.toList) ∧ m.colors = none := by
  obtain ⟨s, hfound, hnone, hcount⟩ : ∃ s ∈ (Hull.seed (Hull.distinct speckled)
      ⟨0, size_distinct_speckled ▸ Nat.succ_pos 4⟩).toOption, Hull.apex? s.faces = none ∧
        (Hull.toMesh _ s.faces).vertexCount = 4 := by decide +kernel
  -- No point is in front of the first tetrahedron, which is the hull.
  have hhull : convexHull speckled = .ok (Hull.toMesh _ s.faces) := by
    rw [convexHull, dif_neg (by rw [size_distinct_speckled]; decide), eq_ok_of_mem_toOption hfound]
    change Except.ok (Hull.toMesh _ (Hull.grow s.center s.faces)) = _
    rw [Hull.grow, hnone]
  obtain ⟨hvertices, -, hcorners, -, hcolors, -⟩ := convexHull_selects hhull
  exact ⟨size_distinct_speckled, _, hhull, hcount, hvertices,
    fun k hk => hcorners k (hcount ▸ hk), hcolors⟩

end Solids
