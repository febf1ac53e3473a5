import Solids.Proofs.Exact.Estimate
import Solids.Proofs.Exact.Seed
import Solids.Proofs.Hull.Selection

/-!
# Hulls enclose their points

Over exact numbers a convex hull is closed, and no point that is given lies in front of one of its
triangles by more than the tolerance (`convexHull_encloses`), if the cloud is resolved: what lies in
front of a triangle of points lies there by more than the tolerance. A given point may be left out
of the cloud as it coincides with another, which is behind all triangles.

Clouds of points with whole coordinates are resolved (`Hull.resolved_of_onGrid`), since four such
points span a whole volume. Resolved clouds have a hull, unless all points are in one plane
(`exists_convexHull`).
-/

namespace Solids

variable [Reading]

namespace Hull

/-! ## Clouds -/

/-- Every given point is closer to a point of the cloud than the tolerance. -/
theorem exists_near {points : List (Vec3 ℝ)} {p : Vec3 ℝ} (hp : p ∈ points) :
    ∃ q ∈ distinct points, q.distance p < tolerance := by
  rcases mem_distinct_or_near hp with hmem | ⟨q, hq, hnear⟩
  · exact ⟨p, hmem, p.distance_self_lt⟩
  · exact ⟨q, hq, not_le.1 hnear⟩

/-- No two places of a cloud are one point. -/
theorem point_injective (points : List (Vec3 ℝ)) : (distinct points).point.Injective := by
  have hne : (distinct points).toList.Nodup := by
    refine (pairwise_distinct points).imp fun {p q} hfar heq => ?_
    rw [heq] at hfar
    exact hfar.not_gt q.distance_self_lt
  intro i j heq
  exact Fin.ext ((List.Nodup.getElem_inj_iff hne (i := i) (j := j)).1 heq)

/-! ## Grids -/

/-- The point has whole coordinates, none greater than ten thousand. -/
def OnGrid (p : Vec3 ℝ) : Prop :=
  ∃ x y z : ℤ, |x| ≤ 10000 ∧ |y| ≤ 10000 ∧ |z| ≤ 10000 ∧ p = ⟨x, y, z⟩

/-- Points with whole coordinates span whole volumes. -/
theorem OnGrid.exists_volumeTo_eq {t : Triangle (Vec3 ℝ)} (ht : t.Over OnGrid) {p : Vec3 ℝ}
    (hp : OnGrid p) : ∃ n : ℤ, t.volumeTo p = n := by
  obtain ⟨⟨ax, ay, az, -, -, -, ha⟩, ⟨bx, b_y, bz, -, -, -, hb⟩, ⟨cx, cy, cz, -, -, -, hc⟩⟩ := ht
  obtain ⟨x, y, z, -, -, -, rfl⟩ := hp
  rw [Triangle.volumeTo_eq, ha, hb, hc]
  exact ⟨(x - ax) * ((b_y - ay) * (cz - az) - (cy - ay) * (bz - az)) +
    (y - ay) * ((bz - az) * (cx - ax) - (cz - az) * (bx - ax)) +
    (z - az) * ((bx - ax) * (cy - ay) - (cx - ax) * (b_y - ay)), by push_cast; ring⟩

/-- Coordinates on a grid differ by twenty thousand at most. -/
theorem OnGrid.abs_sub_le {p q : Vec3 ℝ} (hp : OnGrid p) (hq : OnGrid q) :
    |(p - q).x| ≤ 20000 ∧ |(p - q).y| ≤ 20000 ∧ |(p - q).z| ≤ 20000 := by
  obtain ⟨x, y, z, hx, hy, hz, rfl⟩ := hp
  obtain ⟨x', y', z', hx', hy', hz', rfl⟩ := hq
  have hdiff {k l : ℤ} (hk : |k| ≤ 10000) (hl : |l| ≤ 10000) : |(k : ℝ) - l| ≤ 20000 := by
    have hle : |k - l| ≤ 20000 := (abs_sub k l).trans (by omega)
    exact_mod_cast hle
  exact ⟨hdiff hx hx', hdiff hy hy', hdiff hz hz'⟩

/-- Triangles on a grid have less area than the tolerance could scale down to a volume. -/
theorem OnGrid.doubleArea_lt {t : Triangle (Vec3 ℝ)} (ht : t.Over OnGrid) :
    t.doubleArea * tolerance < 1 := by
  obtain ⟨ha, hb, hc⟩ := ht
  obtain ⟨hbx, hby, hbz⟩ := hb.abs_sub_le ha
  obtain ⟨hcx, hcy, hcz⟩ := hc.abs_sub_le ha
  have hminor {k l m n : ℝ} (hk : |k| ≤ 20000) (hl : |l| ≤ 20000) (hm : |m| ≤ 20000)
      (hn : |n| ≤ 20000) : (k * l - m * n) * (k * l - m * n) ≤ 800000000 * 800000000 := by
    have hkl : |k * l| ≤ 20000 * 20000 := by
      rw [abs_mul]
      exact mul_le_mul hk hl (abs_nonneg l) (by norm_num)
    have hmn : |m * n| ≤ 20000 * 20000 := by
      rw [abs_mul]
      exact mul_le_mul hm hn (abs_nonneg n) (by norm_num)
    have habs : |k * l - m * n| ≤ 800000000 := (abs_sub _ _).trans (by linarith)
    rw [← abs_mul_abs_self]
    exact mul_le_mul habs habs (abs_nonneg _) (by norm_num)
  have hx := hminor hby hcz hcy hbz
  have hy := hminor hbz hcx hcz hbx
  have hz := hminor hbx hcy hcx hby
  have hroot : t.doubleArea < 10000000000 := by
    refine (Real.sqrt_lt' (by norm_num)).2 ?_
    rw [Vec3.dot_eq]
    simp only [Vec3.cross]
    linarith
  have htolerance : (tolerance : ℝ) = 1 / 10000000000 := by norm_num [tolerance]
  rw [htolerance]
  linarith

/-- Points on a grid that are closer than the tolerance are the same. -/
theorem OnGrid.eq_of_distance_lt {p q : Vec3 ℝ} (hp : OnGrid p) (hq : OnGrid q)
    (h : p.distance q < tolerance) : p = q := by
  obtain ⟨x, y, z, -, -, -, rfl⟩ := hp
  obtain ⟨x', y', z', -, -, -, rfl⟩ := hq
  have hlt : (⟨x, y, z⟩ - ⟨x', y', z'⟩ : Vec3 ℝ).lengthSq < 1 := by
    rw [← Vec3.length_mul_length]
    have hnonneg := Vec3.length_nonneg (⟨x, y, z⟩ - ⟨x', y', z'⟩)
    have hone : (⟨x, y, z⟩ - ⟨x', y', z'⟩ : Vec3 ℝ).length < 1 :=
      lt_trans (lt_of_eq_of_lt rfl h) (by norm_num [tolerance])
    nlinarith
  -- The square of their distance is a whole number.
  have hwhole : (⟨x, y, z⟩ - ⟨x', y', z'⟩ : Vec3 ℝ).lengthSq =
      (((x - x') * (x - x') + (y - y') * (y - y') + (z - z') * (z - z') : ℤ) : ℝ) := by
    rw [Vec3.lengthSq_eq]
    simp only [Vec3.sub_eq]
    push_cast
    ring
  refine Vec3.eq_of_lengthSq_sub_eq_zero ?_
  have hnonneg := Vec3.lengthSq_nonneg (⟨x, y, z⟩ - ⟨x', y', z'⟩)
  rw [hwhole] at hlt hnonneg ⊢
  generalize (x - x') * (x - x') + (y - y') * (y - y') + (z - z') * (z - z') = n at *
  have hlt' : n < 1 := by exact_mod_cast hlt
  have hnonneg' : 0 ≤ n := by exact_mod_cast hnonneg
  have hzero : n = 0 := by omega
  rw [hzero, Int.cast_zero]

/-- No point on a grid is left out of a cloud. -/
theorem mem_distinct_of_onGrid {points : List (Vec3 ℝ)} (h : ∀ p ∈ points, OnGrid p) {p : Vec3 ℝ}
    (hp : p ∈ points) : p ∈ distinct points := by
  obtain ⟨q, hq, hnear⟩ := exists_near hp
  have heq := (h q (mem_of_mem_distinct hq)).eq_of_distance_lt (h p hp) hnear
  exact heq ▸ hq

/-- A cloud on a grid is resolved. -/
theorem resolved_of_onGrid {cloud : Cloud ℝ} (h : ∀ p ∈ cloud, OnGrid p) : Resolved cloud := by
  intro t i hpos
  have hpoint (k : cloud.Place) : OnGrid (cloud.point k) := h _ (Array.getElem_mem k.isLt)
  have hover : (t.map cloud.point).Over OnGrid := ⟨hpoint _, hpoint _, hpoint _⟩
  rw [Scalar.zero_eq, Triangle.height_pos_iff] at hpos
  obtain ⟨n, hn⟩ := OnGrid.exists_volumeTo_eq hover (hpoint i)
  have harea := OnGrid.doubleArea_lt hover
  have hone : (1 : ℝ) ≤ (t.map cloud.point).volumeTo (cloud.point i) := by
    rw [hn] at hpos ⊢
    exact_mod_cast Int.cast_pos.1 hpos
  have hareapos : 0 < (t.map cloud.point).doubleArea := by
    refine (Vec3.length_nonneg _).lt_of_ne fun hzero => ?_
    rw [Triangle.volumeTo_eq_zero hzero.symm] at hpos
    exact hpos.false
  rw [Triangle.height_eq, lt_div_iff₀ hareapos, mul_comm]
  exact harea.trans_le hone

end Hull

/-! ## Hulls -/

/-- The convex hull of a resolved cloud is closed, every directed edge being in one triangle and its
    reverse in another, and none of its triangles has a given point in front by more than the
    tolerance. -/
theorem convexHull_encloses {points : List (Vec3 ℝ)} {m : Mesh ℝ}
    (hresolved : Hull.Resolved (Hull.distinct points))
    (hsize : (Hull.distinct points).size ≤ UInt32.size) (h : convexHull points = .ok m) :
    Closed m.triangles ∧ ∀ t ∈ m.triangles, ∃ c, m.corners t = .ok c ∧
      ∀ p ∈ points, c.height p ≤ tolerance := by
  obtain ⟨first, seed, hseed, rfl⟩ := exists_seed_of_convexHull h
  obtain ⟨hclosed, hbehind⟩ := (Hull.Seed.proper (Hull.Seed.volume_ne_zero hseed) hresolved).grow
    hresolved (Hull.point_injective points)
  refine ⟨Hull.closed_toMesh hclosed hsize, List.forall_mem_map.2 fun f hf => ?_⟩
  refine ⟨_, Hull.corners_toMesh hsize hf, fun p hp => ?_⟩
  obtain ⟨q, hq, hnear⟩ := Hull.exists_near hp
  obtain ⟨i, hi, rfl⟩ := Array.mem_iff_getElem.1 hq
  have hle := hbehind f.toFacet (List.mem_map_of_mem hf) ⟨i, hi⟩
  have hheight :
      (f.corners.map (Hull.distinct points).point).height (Hull.distinct points)[i] ≤ 0 :=
    not_lt.1 fun hpos => (Triangle.height_pos_iff.1 hpos).not_ge hle
  exact (Triangle.height_le_add_distance _ _ _).trans (by linarith)

/-- The points of a resolved cloud have a convex hull, unless all of them are in one plane. -/
theorem exists_convexHull {points : List (Vec3 ℝ)}
    (hresolved : Hull.Resolved (Hull.distinct points)) {t : Triangle (Vec3 ℝ)}
    (ht : t.Over (· ∈ Hull.distinct points)) {p : Vec3 ℝ} (hp : p ∈ Hull.distinct points)
    (h : t.volumeTo p ≠ 0) : ∃ m, convexHull points = .ok m := by
  obtain ⟨a, b, c⟩ := t
  obtain ⟨ha, hb, hc⟩ := ht
  obtain ⟨ia, hia, rfl⟩ := Array.mem_iff_getElem.1 ha
  obtain ⟨ib, hib, rfl⟩ := Array.mem_iff_getElem.1 hb
  obtain ⟨ic, hic, rfl⟩ := Array.mem_iff_getElem.1 hc
  obtain ⟨i, hi, rfl⟩ := Array.mem_iff_getElem.1 hp
  have hsize : ¬(Hull.distinct points).size < 4 := by
    -- The four points are different, and so are their places.
    have hne := Triangle.nodup_of_volumeTo_ne_zero h
    have hplaces : [i, ia, ib, ic].Nodup := by
      simp only [Triangle.toList, List.nodup_cons, List.mem_cons, List.not_mem_nil, or_false,
        not_or, not_false_eq_true, List.nodup_nil, and_true] at hne ⊢
      grind
    simp only [List.nodup_cons, List.mem_cons, List.not_mem_nil, or_false, not_or] at hplaces
    omega
  obtain ⟨seed, hseed⟩ := Hull.exists_seed hresolved
    (t := ⟨⟨ia, hia⟩, ⟨ib, hib⟩, ⟨ic, hic⟩⟩) (i := ⟨i, hi⟩) h ⟨0, by omega⟩
  rw [convexHull, dif_neg hsize, hseed]
  exact ⟨_, rfl⟩

end Solids

/-! ## A crate -/

namespace Solids

attribute [local instance] Session.coarseReading

/-- The corners of a cube, its center and the middle of one of its sides. -/
noncomputable def crate : List (Vec3 ℝ) :=
  [(0, 0, 0), (2, 0, 0), (0, 2, 0), (0, 0, 2), (2, 2, 0), (2, 0, 2), (0, 2, 2), (2, 2, 2),
    (1, 1, 1), (1, 1, 0)].map fun p : ℤ × ℤ × ℤ => ⟨p.1, p.2.1, p.2.2⟩

/-- The points of the crate are on a grid. -/
theorem onGrid_crate : ∀ p ∈ crate, Hull.OnGrid p := by
  refine List.forall_mem_map.2 fun p hp => ?_
  have hsmall : |p.1| ≤ 10000 ∧ |p.2.1| ≤ 10000 ∧ |p.2.2| ≤ 10000 := by
    revert p
    decide
  exact ⟨p.1, p.2.1, p.2.2, hsmall.1, hsmall.2.1, hsmall.2.2, rfl⟩

/-- The crate has a hull, which is closed and encloses all its points. -/
theorem convexHull_crate : Hull.Resolved (Hull.distinct crate) ∧
    (Hull.distinct crate).size ≤ UInt32.size ∧
    ∃ m, convexHull crate = .ok m ∧ Closed m.triangles ∧
      ∀ t ∈ m.triangles, ∃ c, m.corners t = .ok c ∧ ∀ p ∈ crate, c.height p ≤ tolerance := by
  have hresolved : Hull.Resolved (Hull.distinct crate) :=
    Hull.resolved_of_onGrid fun p hp => onGrid_crate p (Hull.mem_of_mem_distinct hp)
  have hsize : (Hull.distinct crate).size ≤ UInt32.size :=
    (Hull.size_distinct_le crate).trans (by decide)
  have hmem {p : Vec3 ℝ} (hp : p ∈ crate) : p ∈ Hull.distinct crate :=
    Hull.mem_distinct_of_onGrid onGrid_crate hp
  obtain ⟨m, hm⟩ := exists_convexHull hresolved (t := ⟨⟨0, 0, 0⟩, ⟨2, 0, 0⟩, ⟨0, 2, 0⟩⟩)
    ⟨hmem (by simp [crate]), hmem (by simp [crate]), hmem (by simp [crate])⟩
    (p := ⟨0, 0, 2⟩) (hmem (by simp [crate])) (by norm_num [Triangle.volumeTo_eq])
  obtain ⟨hclosed, hencloses⟩ := convexHull_encloses hresolved hsize hm
  exact ⟨hresolved, hsize, m, hm, hclosed, hencloses⟩

end Solids
