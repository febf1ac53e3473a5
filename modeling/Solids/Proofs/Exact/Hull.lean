import Solids.Proofs.Exact.Facet
import Solids.Proofs.Exact.Mesh
import Solids.Proofs.Hull.Growth

/-!
# Growing convex surfaces

While a hull grows over exact numbers it is a closed convex surface around the inside
(`Hull.Proper`), and so it is in the end, with all points of the cloud behind it
(`Hull.Proper.grow`). This needs a cloud that is resolved, in which faces see what lies in front of
them.

What an apex does is told at the rim of the patch that sees it, where a face that sees it meets one
that does not: the new face there has everything behind it that was behind both of them
(`Hull.Proper.exists_horizon`), the inside included, so it is not turned around. No two edges of the
rim start at one corner (`Hull.Proper.eq_of_fst_eq`): they would lead in one direction, and one of
them would end inside the other. The surface is therefore kept free of corners inside of edges,
which the first tetrahedron does not have.
-/

namespace Solids

namespace Hull

variable [Reading] {cloud : Cloud ℝ} {interior : Vec3 ℝ} {fs : List (Face cloud)}
  {apex i : cloud.Place} {e e' : cloud.Place × cloud.Place}

/-- The volume that a triangle of a cloud spans with one of its points. -/
noncomputable def rise (t : Triangle cloud.Place) (i : cloud.Place) : ℝ :=
  (t.map cloud.point).volumeTo (cloud.point i)

/-- A place is strictly between two others. -/
def Between (e : cloud.Place × cloud.Place) (i : cloud.Place) : Prop :=
  ∃ s : ℝ, 0 < s ∧ s < 1 ∧ cloud.point i = (cloud.point e.1).lerp (cloud.point e.2) s

/-- The faces are a closed convex surface around the inside, without corners inside of edges. They
    see what lies in front of them, and no such point is lost. -/
structure Proper (interior : Vec3 ℝ) (fs : List (Face cloud)) : Prop where
  closed : Closed (surface fs)
  sees_iff : ∀ f ∈ facets fs, ∀ i, f.sees i = true ↔ 0 < rise f.corners i
  inside : ∀ f ∈ facets fs, (f.corners.map cloud.point).volumeTo interior < 0
  convex : ∀ f ∈ facets fs, ∀ i, IsCorner fs i → rise f.corners i ≤ 0
  apart : ∀ f ∈ facets fs, ∀ e ∈ f.corners.edges, ∀ i, IsCorner fs i → ¬Between e i
  settled : ∀ i, Settled fs i

/-! ## Between places -/

/-- From one end of an edge to the other, the volume changes by shares. -/
theorem Between.exists_rise_eq (h : Between e i) : ∃ s : ℝ, 0 < s ∧ s < 1 ∧
    ∀ t : Triangle cloud.Place, rise t i = (1 - s) * rise t e.1 + s * rise t e.2 := by
  obtain ⟨s, hs, hs', hi⟩ := h
  refine ⟨s, hs, hs', fun t => ?_⟩
  rw [rise, hi, Triangle.volumeTo_lerp]
  rfl

/-- The corners of a triangle span no volume with it. -/
theorem rise_corner {t : Triangle cloud.Place} (hi : i ∈ t.toList) : rise t i = 0 :=
  Triangle.volumeTo_corner (List.mem_map_of_mem hi)

/-- Points at one distance in one direction are the same. -/
theorem eq_of_sub_mul_eq {a b c : Vec3 ℝ} {r : ℝ} (h : (c - a) * r = (b - a) * r) (hr : r ≠ 0) :
    b = c := by
  obtain ⟨x, y, z⟩ := c
  obtain ⟨x', y', z'⟩ := b
  simp only [Vec3.sub_eq, Vec3.mul_eq, Vec3.mk.injEq] at h ⊢
  exact ⟨sub_left_inj.1 (mul_right_cancel₀ hr h.1.symm),
    sub_left_inj.1 (mul_right_cancel₀ hr h.2.1.symm),
    sub_left_inj.1 (mul_right_cancel₀ hr h.2.2.symm)⟩

/-- On two edges in one direction, the end of the shorter one is inside of the longer one. -/
theorem between_of_sub_mul_eq {u v v' : cloud.Place} {r r' : ℝ}
    (h : (cloud.point v' - cloud.point u) * r = (cloud.point v - cloud.point u) * r')
    (hlt : r < r') (hneg : r' < 0) : Between (u, v) v' := by
  have hr : r ≠ 0 := (hlt.trans hneg).ne
  refine ⟨r' / r, div_pos_of_neg_of_neg hneg (hlt.trans hneg),
    (div_lt_one_of_neg (hlt.trans hneg)).2 hlt, ?_⟩
  generalize cloud.point u = a at h ⊢
  generalize cloud.point v = b at h ⊢
  generalize cloud.point v' = c at h ⊢
  obtain ⟨x, y, z⟩ := c
  simp only [Vec3.sub_eq, Vec3.mul_eq, Vec3.lerp_eq, Vec3.mk.injEq] at h ⊢
  obtain ⟨hx, hy, hz⟩ := h
  refine ⟨?_, ?_, ?_⟩ <;> field_simp
  · linear_combination hx
  · linear_combination hy
  · linear_combination hz

/-! ## Rims -/

namespace Proper

variable (h : Proper interior fs)
include h

/-- A face that sees a point has it in front. -/
theorem rise_le {f : Facet cloud} (hf : f ∈ facets fs) (hsees : f.sees i = false) :
    rise f.corners i ≤ 0 :=
  not_lt.1 fun hpos => by simp [(h.sees_iff f hf i).2 hpos] at hsees

/-- A face at an edge of the rim sees the apex. What lies behind all faces lies behind the triangle
    from the edge to the apex, and the inside does strictly. -/
theorem exists_horizon (he : e ∈ rim (patch fs apex)) : ∃ f ∈ facets fs, e ∈ f.corners.edges ∧
    0 < rise f.corners apex ∧
    (Triangle.map cloud.point ⟨e.1, e.2, apex⟩).volumeTo interior < 0 ∧
    ∀ i, (∀ g ∈ facets fs, rise g.corners i ≤ 0) → rise ⟨e.1, e.2, apex⟩ i ≤ 0 := by
  obtain ⟨f, hf, g, hg, hseen, hunseen, hef, heg⟩ := exists_of_mem_rim h.closed he
  have hrise := (h.sees_iff f hf apex).1 hseen
  have hrise' := h.rise_le hg hunseen
  obtain ⟨w, -, hw⟩ := Triangle.exists_volumeTo_eq hef cloud.point
  obtain ⟨z, hz, hz'⟩ := Triangle.exists_volumeTo_eq heg cloud.point
  have hbend := h.convex f hf z ⟨g, hg, hz⟩
  have hin := h.inside f hf
  have hin' := h.inside g hg
  rw [rise, hw] at hrise hbend
  rw [rise, hz'] at hrise'
  rw [hw] at hin
  rw [hz'] at hin'
  obtain ⟨hstrict, hbehind⟩ := Triangle.volumeTo_le_of_horizon hrise hrise' hbend hin hin'
  refine ⟨f, hf, hef, by rw [rise, hw]; exact hrise, hstrict, fun i hi => ?_⟩
  have hif := hi f hf
  have hig := hi g hg
  rw [rise, hw] at hif
  rw [rise, hz'] at hig
  exact hbehind _ hif hig

/-- No two edges of the rim start at one corner. -/
theorem eq_of_fst_eq (hpoint : cloud.point.Injective) (he : e ∈ rim (patch fs apex))
    (he' : e' ∈ rim (patch fs apex)) (heq : e.1 = e'.1) : e = e' := by
  obtain ⟨u, v⟩ := e
  obtain ⟨_, v'⟩ := e'
  obtain rfl : u = _ := heq
  obtain ⟨f, hf, hef, hrise, hin, hbehind⟩ := h.exists_horizon he
  obtain ⟨g, hg, heg, hrise', hin', hbehind'⟩ := h.exists_horizon he'
  have hv := (isCorner_of_mem_edges hf hef).2
  have hv' := (isCorner_of_mem_edges hg heg).2
  obtain ⟨w, -, hw⟩ := Triangle.exists_volumeTo_eq hef cloud.point
  obtain ⟨w', -, hw'⟩ := Triangle.exists_volumeTo_eq heg cloud.point
  have hfv := h.convex f hf v' hv'
  have hgv := h.convex g hg v hv
  rw [rise, hw] at hrise hfv
  rw [rise, hw'] at hrise' hgv
  have hparallel := Triangle.sub_mul_eq_of_horizon hin hin'
    (hbehind' v fun g hg => h.convex g hg v hv) (hbehind v' fun g hg => h.convex g hg v' hv')
    hrise hrise' hfv hgv
  -- Of two edges in one direction the shorter one would end inside the longer one.
  rcases lt_trichotomy (Triangle.volumeTo ⟨cloud.point u, cloud.point v, cloud.point apex⟩ interior)
    (Triangle.volumeTo ⟨cloud.point u, cloud.point v', cloud.point apex⟩ interior)
    with hlt | hsame | hgt
  · exact absurd (between_of_sub_mul_eq hparallel hlt hin') (h.apart f hf _ hef v' hv')
  · rw [← hsame] at hparallel
    exact Prod.ext rfl (hpoint (eq_of_sub_mul_eq hparallel hin.ne))
  · exact absurd (between_of_sub_mul_eq hparallel.symm hgt hin) (h.apart g hg _ heg v hv)

/-- There is a face with the next apex in front. -/
theorem exists_rise_pos (hsome : apex? fs = some apex) :
    ∃ f ∈ facets fs, 0 < rise f.corners apex := by
  obtain ⟨f, hf, hsees⟩ := exists_sees_of_apex? hsome
  exact ⟨f, hf, (h.sees_iff f hf apex).1 hsees⟩

/-- The facet that an apex makes of an edge of the rim is not turned around. -/
theorem corners_make_of_mem_rim (he : e ∈ rim (patch fs apex)) :
    (Facet.make interior ⟨e.1, e.2, apex⟩).corners = ⟨e.1, e.2, apex⟩ := by
  obtain ⟨-, -, -, -, hin, -⟩ := h.exists_horizon he
  rw [Facet.corners_make, if_neg hin.not_gt]

/-- The next apex does not tear the surface. -/
theorem smooth (hpoint : cloud.point.Injective) (hsome : apex? fs = some apex) :
    Smooth interior fs apex where
  not_isCorner hcorner := by
    obtain ⟨f, hf, hrise⟩ := h.exists_rise_pos hsome
    exact hrise.not_ge (h.convex f hf apex hcorner)
  nodup_starts := (List.nodup_map_iff_inj_on (isBorder_rim _).nodup).2
    fun _ he _ he' heq => h.eq_of_fst_eq hpoint he he' heq
  corners_make _ he := h.corners_make_of_mem_rim he

/-- After an apex, the corners are it and some of those before. -/
theorem isCorner_expand (hi : IsCorner (expand interior fs apex) i) : i = apex ∨ IsCorner fs i := by
  obtain ⟨f, hf, hi⟩ := hi
  rcases mem_facets_expand.1 hf with ⟨hf, -⟩ | ⟨e, he, rfl⟩
  · exact .inr ⟨f, hf, hi⟩
  · obtain ⟨f, hf, hef, -⟩ := h.exists_horizon he
    obtain ⟨hstart, hend⟩ := isCorner_of_mem_edges hf hef
    rw [h.corners_make_of_mem_rim he] at hi
    simp only [Triangle.toList, List.mem_cons, List.not_mem_nil, or_false] at hi
    rcases hi with rfl | rfl | rfl
    · exact .inr hstart
    · exact .inr hend
    · exact .inl rfl

/-- No corner comes to lie inside of an edge to an apex. -/
theorem not_between_apex {f : Facet cloud} (hf : f ∈ facets fs) (hrise : 0 < rise f.corners apex)
    {j : cloud.Place} (hj : j ∈ f.corners.toList) (hi : i = apex ∨ IsCorner fs i) :
    ¬Between (j, apex) i ∧ ¬Between (apex, j) i := by
  have hjzero := rise_corner hj
  have hbound : rise f.corners i ≤ 0 ∨ rise f.corners i = rise f.corners apex :=
    hi.symm.imp (h.convex f hf i) (congrArg (rise f.corners))
  -- On the way from the corner to the apex the volume is positive, and less than at the apex.
  refine ⟨fun hbetween => ?_, fun hbetween => ?_⟩
  · obtain ⟨s, hs, hs', hshare⟩ := hbetween.exists_rise_eq
    have hrise' := hshare f.corners
    rw [hjzero, mul_zero, zero_add] at hrise'
    have hpos := mul_pos hs hrise
    have hlt := mul_lt_of_lt_one_left hrise hs'
    rcases hbound with hle | heq <;> linarith
  · obtain ⟨s, hs, hs', hshare⟩ := hbetween.exists_rise_eq
    have hrise' := hshare f.corners
    rw [hjzero, mul_zero, add_zero] at hrise'
    have hpos := mul_pos (sub_pos.2 hs') hrise
    have hlt := mul_lt_of_lt_one_left hrise (sub_lt_self 1 hs)
    rcases hbound with hle | heq <;> linarith

/-- An apex does not come to lie inside of an edge that was there. -/
theorem apart_of_isCorner (hsome : apex? fs = some apex) {f : Facet cloud} (hf : f ∈ facets fs)
    (he : e ∈ f.corners.edges) (hi : i = apex ∨ IsCorner fs i) : ¬Between e i := by
  rcases hi with rfl | hi
  · intro hbetween
    obtain ⟨g, hg, hrise⟩ := h.exists_rise_pos hsome
    obtain ⟨hstart, hend⟩ := isCorner_of_mem_edges hf he
    obtain ⟨s, hs, hs', hshare⟩ := hbetween.exists_rise_eq
    have hfirst := mul_nonpos_of_nonneg_of_nonpos (sub_pos.2 hs').le (h.convex g hg _ hstart)
    have hsecond := mul_nonpos_of_nonneg_of_nonpos hs.le (h.convex g hg _ hend)
    have hrise' := hshare g.corners
    linarith
  · exact h.apart f hf e he i hi

/-- The faces after an apex see what lies in front of them. -/
theorem sees_iff_expand (hresolved : Resolved cloud) {f : Facet cloud}
    (hf : f ∈ facets (Hull.expand interior fs apex)) (i : cloud.Place) :
    f.sees i = true ↔ 0 < rise f.corners i := by
  rcases mem_facets_expand.1 hf with ⟨hold, -⟩ | ⟨e, -, rfl⟩
  · exact h.sees_iff f hold i
  · exact Facet.sees_make_iff hresolved i

/-- What lay behind all faces lies behind those after an apex, and so does the apex. -/
theorem rise_le_expand (hi : i = apex ∨ ∀ g ∈ facets fs, rise g.corners i ≤ 0) {f : Facet cloud}
    (hf : f ∈ facets (Hull.expand interior fs apex)) : rise f.corners i ≤ 0 := by
  rcases mem_facets_expand.1 hf with ⟨hold, hunseen⟩ | ⟨e, he, rfl⟩
  · rcases hi with rfl | hi
    · exact h.rise_le hold hunseen
    · exact hi f hold
  · obtain ⟨-, -, -, -, -, hbehind⟩ := h.exists_horizon he
    rw [h.corners_make_of_mem_rim he]
    rcases hi with rfl | hi
    · exact (rise_corner (by simp [Triangle.toList])).le
    · exact hbehind i hi

/-- No corner is inside of an edge of a face after an apex. -/
theorem apart_expand (hsome : apex? fs = some apex) {f : Facet cloud}
    (hf : f ∈ facets (Hull.expand interior fs apex)) (he : e ∈ f.corners.edges)
    (hi : IsCorner (Hull.expand interior fs apex) i) : ¬Between e i := by
  have hi := h.isCorner_expand hi
  rcases mem_facets_expand.1 hf with ⟨hold, -⟩ | ⟨r, hr, rfl⟩
  · exact h.apart_of_isCorner hsome hold he hi
  · obtain ⟨g, hg, hrg, hrise, -, -⟩ := h.exists_horizon hr
    obtain ⟨hstart, hend⟩ : r.1 ∈ g.corners.toList ∧ r.2 ∈ g.corners.toList :=
      Triangle.Over.of_mem_edges (Triangle.over_iff.2 fun _ hi => hi) hrg
    rw [h.corners_make_of_mem_rim hr] at he
    simp only [Triangle.edges, List.mem_cons, List.not_mem_nil, or_false] at he
    rcases he with rfl | rfl | rfl
    · exact h.apart_of_isCorner hsome hg hrg hi
    · exact (h.not_between_apex hg hrise hend hi).1
    · exact (h.not_between_apex hg hrise hstart hi).2

/-- No point is lost when an apex is taken up. -/
theorem settled_expand (hresolved : Resolved cloud) (i : cloud.Place) :
    Settled (Hull.expand interior fs apex) i := by
  have hunseen (hi : i = apex ∨ ∀ g ∈ facets fs, rise g.corners i ≤ 0) :
      Settled (Hull.expand interior fs apex) i :=
    .inr fun f hf => Bool.eq_false_iff.2 fun hsees =>
      ((h.sees_iff_expand hresolved hf i).1 hsees).not_ge (h.rise_le_expand hi hf)
  rcases h.settled i with hparked | hnone
  · by_cases hapex : i = apex
    · exact hunseen (.inl hapex)
    · exact Hull.settled_expand hparked hapex
  · exact hunseen (.inr fun g hg => h.rise_le hg (hnone g hg))

/-- An apex makes a closed convex surface of one. -/
theorem expand (hresolved : Resolved cloud) (hpoint : cloud.point.Injective)
    (hsome : apex? fs = some apex) : Proper interior (Hull.expand interior fs apex) where
  closed := (h.smooth hpoint hsome).closed_expand h.closed
  sees_iff _ := h.sees_iff_expand hresolved
  inside f hf := by
    rcases mem_facets_expand.1 hf with ⟨hold, -⟩ | ⟨e, he, rfl⟩
    · exact h.inside f hold
    · obtain ⟨-, -, -, -, hin, -⟩ := h.exists_horizon he
      rw [h.corners_make_of_mem_rim he]
      exact hin
  convex f hf i hi :=
    h.rise_le_expand ((h.isCorner_expand hi).imp_right fun hi g hg => h.convex g hg i hi) hf
  apart _ hf _ he _ hi := h.apart_expand hsome hf he hi
  settled := h.settled_expand hresolved

/-- Growing makes a closed convex surface that has all points behind it. -/
theorem grow (hresolved : Resolved cloud) (hpoint : cloud.point.Injective) :
    Closed (surface (Hull.grow interior fs)) ∧
      ∀ f ∈ facets (Hull.grow interior fs), ∀ i, rise f.corners i ≤ 0 := by
  obtain ⟨hproper, hparked⟩ := grow_induction (P := Proper interior)
    (fun _ _ h hsome => h.expand hresolved hpoint hsome) h
  refine ⟨hproper.closed, fun f hf i => hproper.rise_le hf ?_⟩
  rcases hproper.settled i with hmem | hnone
  · rw [hparked] at hmem
    cases hmem
  · exact hnone f hf

end Proper

end Hull

end Solids
