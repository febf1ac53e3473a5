import Solids.Proofs.Exact.Estimate
import Solids.Proofs.Exact.Partition
import Solids.Proofs.Mesh.Idle

/-!
# Stencils keep the surface

A stencil has the fragments of the surface that it is put on, those inside the other mesh painted.
Exactly, it covers every triangle with an area (`Mesh.Covers`) and is nowhere else (`Mesh.StaysOn`),
as long as no fragment lies on a plane of the other mesh at a right angle to it
(`Mesh.stencil_partitions`).

Such a fragment is as wide as the tolerance, and is lost whole (`Mesh.lost_sliver`).
-/

namespace Solids

/-! ## Trees of polygons -/

section Flat

variable {α : Type} [Scalar α] {plane : Plane α} {p : Polygon α} {ps : List (Polygon α)}

/-- A polygon on a plane goes to the side that it faces. -/
theorem Polygon.cut_of_liesOn (h : p.liesOn plane = true) : cut plane p =
    if 0.0 < plane.normal.dot p.plane.normal then { onFront := [p] } else { onBack := [p] } := by
  simp only [liesOn, Bool.and_eq_true, Bool.not_eq_true'] at h
  rw [cut, h.1, h.2]

namespace Tree

/-- A tree of polygons has a plane. -/
theorem ne_leaf_of_ofPolygons {t : Tree α} (h : ofPolygons (p :: ps) = .ok t) : t ≠ .leaf := by
  rw [ofPolygons] at h
  split at h
  · obtain ⟨front, -, h⟩ := bind_eq_ok_iff.1 h
    obtain ⟨back, -, h⟩ := bind_eq_ok_iff.1 h
    obtain rfl := Except.ok.inj h
    intro hleaf
    cases hleaf
  · cases h

/-- The tree of a polygon on its plane. -/
theorem ofPolygons_singleton (h : p.liesOn p.plane = true) :
    ofPolygons [p] = .ok (.node p.plane [p] .leaf .leaf) := by
  have hempty : ofPolygons ([] : List (Polygon α)) = .ok .leaf := by rw [ofPolygons]
  have hsort : p.plane.sort [p] = (Polygon.cut p.plane p).append {} := rfl
  rw [ofPolygons, dif_pos h]
  dsimp only
  rw [hsort, Polygon.cut_of_liesOn h]
  split
  · simp only [Parts.append, List.append_nil, hempty]
    rfl
  · simp only [Parts.append, List.append_nil, hempty]
    rfl

/-- A tree of one plane keeps a polygon on it that faces as it does. -/
theorem clip_singleton (own : List (Polygon α)) (h : p.liesOn plane = true) :
    (node plane own .leaf .leaf).clip [p] =
      if 0.0 < plane.normal.dot p.plane.normal then [p] else [] := by
  have hsort : plane.sort [p] = (Polygon.cut plane p).append {} := rfl
  rw [clip_node, hsort, Polygon.cut_of_liesOn h]
  split <;> rfl

end Tree

end Flat

variable [Reading]

/-! ## Triangles as polygons -/

/-- A vector is its length in its direction. -/
theorem Vec3.div_length_mul_length {n : Vec3 ℝ} (h : 0 < n.length) :
    n / n.length * n.length = n := by
  simp only [div_eq, mul_eq, div_mul_cancel₀ _ h.ne']

/-- The normal of the plane through three points is along the product of the ways between them. -/
theorem Plane.exists_cross_eq {a b c : Vec3 ℝ} {plane : Plane ℝ} (h : through? a b c = some plane) :
    plane.normal.lengthSq ≠ 0 ∧ ∃ r : ℝ, 0 < r ∧ (b - a).cross (c - a) = plane.normal * r := by
  rw [through?] at h
  dsimp only at h
  split at h
  · cases h
  · next hlength =>
    have hpos : 0 < ((b - a).cross (c - a)).length := tolerance_pos.trans_le (not_lt.1 hlength)
    have hmul := Vec3.div_length_mul_length hpos
    cases h
    refine ⟨fun hzero => ?_, _, hpos, hmul.symm⟩
    have hsq := Vec3.lengthSq_mul ((b - a).cross (c - a) / ((b - a).cross (c - a)).length)
      ((b - a).cross (c - a)).length
    rw [hmul, ← Vec3.length_mul_length, hzero, zero_mul] at hsq
    exact (mul_pos hpos hpos).ne' hsq

/-- The plane through three points, by the direction and the length of the product of the ways
    between them. -/
theorem Plane.through?_eq {a b c n : Vec3 ℝ} {r : ℝ} (hcross : (b - a).cross (c - a) = n * r)
    (hn : n.lengthSq = 1) (hr : tolerance ≤ r) : through? a b c = some ⟨n, n.dot a⟩ := by
  have hpos : 0 < r := tolerance_pos.trans_le hr
  have hlength : (n * r).length = r := by
    change √(n * r).lengthSq = r
    rw [Vec3.lengthSq_mul, hn, one_mul, Real.sqrt_mul_self hpos.le]
  have hdiv : n * r / r = n := by
    simp only [Vec3.div_eq, Vec3.mul_eq, mul_div_cancel_right₀ _ hpos.ne']
  rw [through?]
  dsimp only
  rw [hcross, hlength, if_neg hr.not_gt, hdiv]

namespace Vec3

/-- A turn around a multiple of a direction is a multiple of the turn. -/
theorem wind_mul (n a b c : Vec3 ℝ) (r : ℝ) : wind (n * r) a b c = r * wind n a b c := by
  simp only [wind_eq, mul_eq]
  ring

/-- Three points turn left around what they span. -/
theorem wind_cross_nonneg (a b c : Vec3 ℝ) : 0 ≤ wind ((b - a).cross (c - a)) a b c :=
  lengthSq_nonneg _

end Vec3

namespace Mesh

variable {a b m : Mesh ℝ} {p q r : Polygon ℝ} {ps rs : List (Polygon ℝ)} {x : Vec3 ℝ}

/-- A triangle of a mesh is a convex polygon. -/
theorem Face.isConvex (h : a.Face p) : p.IsConvex := by
  obtain ⟨t, -, c, -, hvertices, hplane⟩ := h
  obtain ⟨hne, r, hr, hcross⟩ := Plane.exists_cross_eq hplane
  refine ⟨hne, by rw [hvertices]; exact Nat.le_refl 3, ?_, fun u v w hturn => ?_⟩
  · rw [hvertices]
    refine ⟨p.plane.offset, fun v hv => ?_⟩
    exact sub_eq_zero.1 (Plane.distance_through? hplane v hv)
  · rw [hvertices] at hturn
    obtain ⟨rfl, rfl, rfl⟩ : u = c.a ∧ v = c.b ∧ w = c.c := by
      simpa [Triangle.toList] using hturn.eq_of_length rfl
    have hwind := Vec3.wind_cross_nonneg c.a c.b c.c
    rw [hcross, Vec3.wind_mul] at hwind
    exact nonneg_of_mul_nonneg_right hwind hr

/-! ## Surfaces -/

/-- Every triangle of `a` with an area is covered by triangles of the mesh. -/
def Covers (m a : Mesh ℝ) : Prop :=
  ∀ p, a.Face p → ∀ x, Vec3.Spanned p.vertices x →
    ∃ t ∈ m.triangles, ∃ c, m.corners t = .ok c ∧ Vec3.Spanned c.toList x

/-- Every triangle of the mesh is within a triangle of `a` and faces as that does. -/
def StaysOn (m a : Mesh ℝ) : Prop :=
  ∀ t ∈ m.triangles, ∀ c, m.corners t = .ok c → ∃ s ∈ a.triangles, ∃ d, a.corners s = .ok d ∧
    (∀ v ∈ c.toList, Vec3.Spanned d.toList v) ∧
    0 ≤ Vec3.wind ((d.b - d.a).cross (d.c - d.a)) c.a c.b c.c

/-- A mesh covers itself. -/
theorem covers_self (a : Mesh ℝ) : a.Covers a := by
  rintro p ⟨t, ht, c, hc, hvertices, -⟩ x hx
  exact ⟨t, ht, c, hc, hvertices ▸ hx⟩

/-- A mesh stays on itself. -/
theorem staysOn_self (a : Mesh ℝ) : a.StaysOn a := fun t ht c hc =>
  ⟨t, ht, c, hc, fun _ hv => Vec3.spanned_of_mem hv, Vec3.wind_cross_nonneg c.a c.b c.c⟩

section Polygons

variable (hsize : (ofPolygons rs).vertexCount ≤ UInt32.size)
include hsize

/-- The mesh of convex polygons covers what these cover. -/
theorem covers_ofPolygons (h : ∀ p, a.Face p → ∀ x, Vec3.Spanned p.vertices x →
    ∃ r ∈ rs, r.IsConvex ∧ Vec3.Spanned r.vertices x) : (ofPolygons rs).Covers a := by
  intro p hp x hx
  obtain ⟨r, hr, hconvex, hx⟩ := h p hp x hx
  -- The polygon is covered by its fan.
  obtain ⟨c, hc, hx⟩ :=
    hconvex.turnsLeft.exists_mem_fan hconvex.normal_ne_zero hconvex.three_le_length hx
  obtain ⟨t, ht, hcorners⟩ := exists_mem_of_forall₂
    (forall₂_of_mapM_eq_ok (corners_ofPolygons hsize)) (List.mem_flatMap.2 ⟨r, hr, hc⟩)
  exact ⟨t, ht, c, hcorners, hx⟩

/-- The mesh of parts of triangles stays on these. -/
theorem staysOn_ofPolygons (h : ∀ r ∈ rs, ∃ p, a.Face p ∧ r.PartOf p) :
    (ofPolygons rs).StaysOn a := by
  intro t ht c hc
  obtain ⟨d, hd, hcorners⟩ := exists_mem_of_forall₂
    (forall₂_of_mapM_eq_ok (corners_ofPolygons hsize)).flip ht
  obtain rfl : c = d := Except.ok.inj (hc.symm.trans hcorners)
  obtain ⟨r, hr, hfan⟩ := List.mem_flatMap.1 hd
  obtain ⟨p, ⟨s, hs, d, hd, hvertices, hplane⟩, hpart⟩ := h r hr
  have hsublist := sublist_of_mem_fan hfan
  refine ⟨s, hs, d, hd, fun v hv => ?_, ?_⟩
  · rw [← hvertices]
    exact hpart.spanned v (hsublist.subset hv)
  · obtain ⟨-, k, hk, hcross⟩ := Plane.exists_cross_eq hplane
    rw [hcross, Vec3.wind_mul, ← hpart.plane_eq]
    exact mul_nonneg hk.le (hpart.isConvex.turnsLeft.left _ _ _ hsublist)

end Polygons

/-! ## Stencils -/

/-- The polygons of a well-formed mesh divide space. -/
theorem WellFormed.exists_tree (hb : b.WellFormed) {qs : List (Polygon ℝ)}
    (hqs : ∀ q ∈ qs, b.Face q) : ∃ t, Tree.ofPolygons qs = .ok t := by
  obtain ⟨t, ht⟩ := (hb.divides hb (b.flat_exact b)).grown .leaf qs trivial
    fun q hq => .whole (.inl (hqs q hq))
  exact ⟨t, by rw [← Tree.insert, Tree.grown_iff.1 ht]⟩

/-- Exactly, the polygons of a well-formed mesh divide space. A convex polygon is divided into its
    fragments. If the mesh has a triangle with an area, its tree keeps some of the fragments of
    polygons and the complement the others, none twice, unless a fragment lies on a plane of the
    tree at a right angle. Without such fragments a stencil of the mesh covers the surface that it
    is put on and stays on it, as long as there are not more vertices than indices. -/
theorem stencil_partitions (ha : a.WellFormed) (hb : b.WellFormed) :
    ∃ qs t, b.polygons = .ok qs ∧ Tree.ofPolygons qs = .ok t ∧
      (∀ p : Polygon ℝ, p.IsConvex → t.Divided p (t.fragments p)) ∧
      (b.HasFace → ∀ ps : List (Polygon ℝ), (∀ p ∈ ps, t.Faced p) →
        (t.clip ps ++ t.invert.clip ps).Perm (ps.flatMap t.fragments)) ∧
      ((∀ p, a.Face p → t.Faced p) → ∃ m, a.stencil b = .ok m ∧
        (m.vertexCount ≤ UInt32.size → m.Covers a ∧ m.StaysOn a)) := by
  obtain ⟨ps, hps, hfaces, -⟩ := ha.exists_polygons
  obtain ⟨qs, hqs, hqfaces, hidle⟩ := hb.exists_polygons
  obtain ⟨t, ht⟩ := hb.exists_tree hqfaces
  refine ⟨qs, t, hqs, ht, fun p hp => t.divided_fragments hp, fun hface rs hrs => ?_,
    fun hfaced => ?_⟩
  · refine Tree.clip_append_clip_invert ?_ hrs
    cases qs with
    | nil => exact absurd hface (hidle.1 rfl)
    | cons q qs => exact Tree.ne_leaf_of_ofPolygons ht
  · by_cases hnone : ps.isEmpty = true ∨ b.triangles = []
    · exact ⟨a, stencil_eq_self hps hnone, fun _ => ⟨a.covers_self, a.staysOn_self⟩⟩
    · rw [not_or, Bool.not_eq_true] at hnone
      obtain ⟨hsome, htriangles⟩ := hnone
      obtain ⟨u, us, htriangles⟩ := List.exists_cons_of_ne_nil htriangles
      obtain ⟨paint, hpaint, -⟩ := (hb.reads_vertexColor (htriangles ▸ List.mem_cons_self :
        u ∈ b.triangles)).exists_ok
      have hkept {r : Polygon ℝ} := Tree.mem_clip_or_iff (r := r) fun p hp => hfaced p (hfaces p hp)
      refine ⟨_, stencil_eq hps hqs hsome ht htriangles hpaint, fun hsize =>
        ⟨covers_ofPolygons hsize fun p hp x hx => ?_, staysOn_ofPolygons hsize fun r hr => ?_⟩⟩
      · -- The triangle is among the polygons, and one of its fragments covers the point.
        obtain ⟨color, hmem⟩ := exists_mem_polygons hps hp
        have hconvex := (hfaces _ hmem).isConvex
        obtain ⟨r, hr, hx⟩ := t.exists_mem_fragments hconvex hx
        have hpart := Tree.partOf_of_mem_fragments hconvex hr
        rcases hkept.2 ⟨_, hmem, hr⟩ with hclip | hclip
        · exact ⟨r, List.mem_append_left _ hclip, hpart.isConvex, hx⟩
        · exact ⟨_, List.mem_append_right _ (List.mem_map_of_mem hclip),
            (hpart.paint (some paint)).isConvex, hx⟩
      · rcases List.mem_append.1 hr with hr | hr
        · obtain ⟨p, hp, hr⟩ := hkept.1 (.inl hr)
          exact ⟨p, hfaces p hp, Tree.partOf_of_mem_fragments (hfaces p hp).isConvex hr⟩
        · obtain ⟨s, hs, rfl⟩ := List.mem_map.1 hr
          obtain ⟨p, hp, hs⟩ := hkept.1 (.inr hs)
          have hpart := Tree.partOf_of_mem_fragments (hfaces p hp).isConvex hs
          exact ⟨{ p with color := some paint }, hfaces p hp, hpart.paint (some paint)⟩

/-! ## Stencils of one triangle -/

/-- The mesh of one triangle. -/
def ofCorners {α : Type} (c : Triangle (Vec3 α)) : Mesh α where
  vertices := #[c.a, c.b, c.c]
  triangles := [⟨0, 1, 2⟩]

omit [Reading] in
/-- The mesh of one triangle is well formed. -/
theorem wellFormed_ofCorners {α : Type} (c : Triangle (Vec3 α)) : (ofCorners c).WellFormed where
  corner_lt t ht := by
    rw [List.mem_singleton.1 ht]
    exact ⟨(by decide : (0 : UInt32).toNat < 3), (by decide : (1 : UInt32).toNat < 3),
      (by decide : (2 : UInt32).toNat < 3)⟩
  size_colors colors hcolors := nomatch hcolors

section OneTriangle

variable {c d : Triangle (Vec3 ℝ)} {plane plane' : Plane ℝ}
  (hc : Plane.through? c.a c.b c.c = some plane)
include hc

/-- A triangle with an area has a face. -/
theorem face_ofCorners : (ofCorners c).Face { vertices := c.toList, plane } :=
  ⟨_, List.mem_singleton_self _, c, rfl, rfl, hc⟩

omit hc in
/-- A face of a triangle is on its plane. -/
theorem Face.through?_eq {p : Polygon ℝ} (hp : (ofCorners c).Face p) :
    Plane.through? c.a c.b c.c = some p.plane := by
  obtain ⟨t, ht, d, hd, -, hplane⟩ := hp
  obtain rfl := List.mem_singleton.1 ht
  have hcorners : (ofCorners c).corners ⟨0, 1, 2⟩ = .ok c := rfl
  rwa [Except.ok.inj (hd.symm.trans hcorners)] at hplane

/-- A triangle with an area is read as one polygon. -/
theorem polygons_ofCorners : (ofCorners c).polygons = .ok [{ vertices := c.toList, plane }] := by
  have hmake : (ofCorners c).polygon? ⟨0, 1, 2⟩ = .ok (some { vertices := c.toList, plane }) := by
    change Except.ok ((Plane.through? c.a c.b c.c).map _) = _
    rw [hc]
    rfl
  have hall : (ofCorners c).triangles.mapM (ofCorners c).polygon? =
      .ok [some { vertices := c.toList, plane }] :=
    mapM_eq_ok_of_forall₂ (.cons hmake .nil)
  rw [polygons, hall]
  rfl

/-- A triangle with an area divides space by its plane. -/
theorem ofPolygons_ofCorners : Tree.ofPolygons [{ vertices := c.toList, plane }] =
    .ok (.node plane [{ vertices := c.toList, plane }] .leaf .leaf) :=
  Tree.ofPolygons_singleton <| Polygon.liesOn_of_side fun v hv =>
    Plane.side_eq_on (Plane.distance_through? hc v hv)

/-- The stencil of a triangle on one that lies on its plane has that once if it faces as the plane
    does, and painted if the plane turned around does. -/
theorem stencil_ofCorners (hd : Plane.through? d.a d.b d.c = some plane') {p : Polygon ℝ}
    (hp : p = { vertices := c.toList, plane }) (hflat : p.liesOn plane' = true) :
    (ofCorners c).stencil (ofCorners d) = .ok (ofPolygons
      ((if 0.0 < plane'.normal.dot p.plane.normal then [p] else []) ++
        (if 0.0 < plane'.flip.normal.dot p.plane.normal then [p] else []).map
          fun p => { p with color := some .unpainted })) := by
  have hflip := (p.liesOn_flip plane').trans hflat
  have hpolygons := polygons_ofCorners hc
  rw [← hp] at hpolygons
  rw [stencil_eq hpolygons (polygons_ofCorners hd) rfl (ofPolygons_ofCorners hd) rfl rfl,
    Tree.invert, Tree.invert, Tree.clip_singleton _ hflat, Tree.clip_singleton _ hflip]

end OneTriangle

end Mesh

end Solids

/-! ## A sliver on a plane -/

namespace Solids.Mesh

attribute [local instance] Session.coarseReading

/-- The corners of a triangle that lies on the ground. -/
def lyingCorners : Triangle (Vec3 ℝ) := ⟨⟨0, 0, 0⟩, ⟨1, 0, 0⟩, ⟨0, 1, 0⟩⟩

/-- The corners of a triangle that stands on the ground and is no higher than the tolerance. -/
noncomputable def standingCorners : Triangle (Vec3 ℝ) :=
  ⟨⟨0, 0, 0⟩, ⟨1, 0, 0⟩, ⟨0, 0, 1 / 200000⟩⟩

/-- A triangle that lies on the ground. -/
abbrev lying : Mesh ℝ := ofCorners lyingCorners

/-- A triangle that stands on the ground. -/
noncomputable abbrev standing : Mesh ℝ := ofCorners standingCorners

/-- The lying triangle as a polygon. -/
def lyingFace : Polygon ℝ where
  vertices := lyingCorners.toList
  plane := ⟨⟨0, 0, 1⟩, 0⟩

/-- The standing triangle as a polygon. -/
noncomputable def standingFace : Polygon ℝ where
  vertices := standingCorners.toList
  plane := ⟨⟨0, -1, 0⟩, 0⟩

/-- The plane of the lying triangle is the ground. -/
theorem through?_lying : Plane.through? lyingCorners.a lyingCorners.b lyingCorners.c =
    some lyingFace.plane := by
  have hcross : (lyingCorners.b - lyingCorners.a).cross (lyingCorners.c - lyingCorners.a) =
      (⟨0, 0, 1⟩ : Vec3 ℝ) * (1 : ℝ) := by
    simp [lyingCorners, Vec3.cross, Vec3.sub_eq, Vec3.mul_eq]
  rw [Plane.through?_eq hcross (by simp [Vec3.lengthSq_eq]) (by norm_num [tolerance])]
  simp [Vec3.dot_eq, lyingCorners, lyingFace]

/-- The plane of the standing triangle is upright. -/
theorem through?_standing : Plane.through? standingCorners.a standingCorners.b standingCorners.c =
    some standingFace.plane := by
  have hcross : (standingCorners.b - standingCorners.a).cross
      (standingCorners.c - standingCorners.a) = (⟨0, -1, 0⟩ : Vec3 ℝ) * (1 / 200000 : ℝ) := by
    simp [standingCorners, Vec3.cross, Vec3.sub_eq, Vec3.mul_eq]
  rw [Plane.through?_eq hcross (by simp [Vec3.lengthSq_eq]) (by norm_num [tolerance])]
  simp [Vec3.dot_eq, standingCorners, standingFace]

/-- The space above the ground and below it. -/
def lyingTree : Tree ℝ := .node lyingFace.plane [lyingFace] .leaf .leaf

/-- The lying triangle divides space in two. -/
theorem ofPolygons_lying : Tree.ofPolygons [lyingFace] = .ok lyingTree :=
  ofPolygons_ofCorners through?_lying

/-- The lying triangle faces as its plane does. -/
theorem dot_lying : lyingFace.plane.normal.dot lyingFace.plane.normal = 1 := by
  simp [Vec3.dot_eq, lyingFace]

/-- The lying triangle is on its own plane. -/
theorem liesOn_lying : lyingFace.liesOn lyingFace.plane = true :=
  Polygon.liesOn_of_side fun v hv =>
    Plane.side_eq_on (Plane.distance_through? through?_lying v hv)

/-- A face of the lying triangle faces as the ground does. -/
theorem faced_lying {p : Polygon ℝ} (hp : lying.Face p) : lyingTree.Faced p := by
  have hplane := Option.some.inj (through?_lying.symm.trans hp.through?_eq)
  rw [lyingTree, Tree.Faced, ← hplane, dot_lying]
  exact ⟨fun _ => one_ne_zero, fun _ _ => trivial, fun _ _ => trivial⟩

/-- The lying triangle is in its stencil on itself once. -/
theorem stencil_lying_eq : lying.stencil lying = .ok (ofPolygons [lyingFace]) := by
  rw [stencil_ofCorners through?_lying through?_lying (p := lyingFace) rfl liesOn_lying,
    Plane.dot_flip, dot_lying, if_pos (by norm_num), if_neg (by norm_num)]
  rfl

/-- The stencil of a triangle on itself covers it and stays on it, and every fragment of it is kept
    once. -/
theorem stencil_lying : lying.WellFormed ∧ lying.HasFace ∧
    ∃ qs t m, lying.polygons = .ok qs ∧ Tree.ofPolygons qs = .ok t ∧ (∀ p ∈ qs, t.Faced p) ∧
      (t.clip qs ++ t.invert.clip qs).Perm (qs.flatMap t.fragments) ∧
      lying.stencil lying = .ok m ∧ m.vertexCount ≤ UInt32.size ∧ m.Covers lying ∧
      m.StaysOn lying := by
  have hformed := wellFormed_ofCorners lyingCorners
  have hface : lying.Face lyingFace := face_ofCorners through?_lying
  obtain ⟨qs, t, hqs, ht, -, hperm, hstencil⟩ := stencil_partitions hformed hformed
  obtain rfl := Except.ok.inj (hqs.symm.trans (polygons_ofCorners through?_lying))
  obtain rfl := Except.ok.inj (ht.symm.trans ofPolygons_lying)
  obtain ⟨m, hm, hsurface⟩ := hstencil fun p hp => faced_lying hp
  obtain rfl := Except.ok.inj (hm.symm.trans stencil_lying_eq)
  have hsize : (ofPolygons [lyingFace]).vertexCount ≤ UInt32.size := by decide
  have hfaced : ∀ p ∈ [lyingFace], lyingTree.Faced p :=
    List.forall_mem_singleton.2 (faced_lying hface)
  obtain ⟨hcovers, hstays⟩ := hsurface hsize
  exact ⟨hformed, ⟨_, hface⟩, _, _, _, hqs, ht, hfaced, hperm ⟨_, hface⟩ _ hfaced, hm, hsize,
    hcovers, hstays⟩

/-- The triangle that stands on the ground is its only fragment, and neither the tree of the lying
    one nor its complement keeps that: the stencil of the lying one on it is nothing. -/
theorem lost_sliver : standing.WellFormed ∧ lying.WellFormed ∧ lying.HasFace ∧
    ∃ p qs t m, standing.polygons = .ok [p] ∧ p.IsConvex ∧ lying.polygons = .ok qs ∧
      Tree.ofPolygons qs = .ok t ∧ t.fragments p = [p] ∧ t.clip [p] = [] ∧
      t.invert.clip [p] = [] ∧ standing.stencil lying = .ok m ∧ m.triangles = [] := by
  have hflat : standingFace.liesOn lyingFace.plane = true := by
    have hdistance (v : Vec3 ℝ) : lyingFace.plane.distance v = v.z := by
      simp [Plane.distance, Vec3.dot_eq, lyingFace]
    refine Polygon.liesOn_of_side fun v hv => ?_
    have hheight : 0 ≤ v.z ∧ v.z ≤ 1 / 200000 := by
      simp only [standingFace, Triangle.toList, standingCorners, List.mem_cons, List.not_mem_nil,
        or_false] at hv
      rcases hv with rfl | rfl | rfl <;> norm_num
    have htolerance : (1 / 200000 : ℝ) ≤ planeTolerance := by norm_num [planeTolerance]
    rw [Plane.side, hdistance, if_neg (by linarith), if_neg (by linarith)]
  have hdot : lyingFace.plane.normal.dot standingFace.plane.normal = 0 := by
    simp [Vec3.dot_eq, lyingFace, standingFace]
  have hflip := (standingFace.liesOn_flip lyingFace.plane).trans hflat
  have hstencil := stencil_ofCorners through?_standing through?_lying (p := standingFace) rfl hflat
  rw [Plane.dot_flip, hdot, if_neg (by norm_num), if_neg (by norm_num)] at hstencil
  have hface : standing.Face standingFace := face_ofCorners through?_standing
  refine ⟨wellFormed_ofCorners _, wellFormed_ofCorners _, ⟨_, face_ofCorners through?_lying⟩,
    standingFace, [lyingFace], lyingTree, _, polygons_ofCorners through?_standing, hface.isConvex,
    polygons_ofCorners through?_lying, ofPolygons_lying, ?_, ?_, ?_, hstencil, rfl⟩
  · rw [lyingTree, Tree.fragments, Polygon.cut_of_liesOn hflat, hdot, if_neg (by norm_num)]
    rfl
  · rw [lyingTree, Tree.clip_singleton _ hflat, hdot, if_neg (by norm_num)]
  · rw [lyingTree, Tree.invert, Tree.invert, Tree.clip_singleton _ hflip, Plane.dot_flip, hdot,
      if_neg (by norm_num)]

end Solids.Mesh
