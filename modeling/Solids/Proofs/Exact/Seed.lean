import Solids.Proofs.Exact.Hull

/-!
# First tetrahedra of hulls

A tetrahedron with a volume is a closed convex surface (`Hull.Seed.proper`) from which a hull can
grow. Each corner spans the volume with the side opposite to it and nothing with the others
(`Hull.Seed.opposite`), so all sides are turned around, or none is.

A cloud has a first tetrahedron, unless all its points are in one plane (`Hull.exists_seed`). The
two extreme points farthest apart are different if there are different points at all. Were no point
off the line through them by more than the tolerance, or none off the plane through three points
found so far, then in a resolved cloud all points would be in a plane with any two, or with these
three.
-/

namespace Solids

namespace Hull

variable [Reading]

/-! ## Choices -/

variable {β : Type} {f : β → ℝ} {xs : List β} {x : β}

omit [Reading] in
/-- A choice of the lesser of two, repeated along a list, ends with the least. -/
theorem foldl_choice_le {choose : β → β → β}
    (h : ∀ x y, f (choose x y) ≤ f x ∧ f (choose x y) ≤ f y) (x : β) (xs : List β) :
    ∀ y ∈ x :: xs, f (xs.foldl choose x) ≤ f y := by
  induction xs generalizing x with
  | nil => exact List.forall_mem_singleton.2 le_rfl
  | cons z zs ih =>
    obtain ⟨hchosen, hzs⟩ := List.forall_mem_cons.1 (ih (choose x z))
    obtain ⟨hx, hz⟩ := h x z
    exact List.forall_mem_cons.2 ⟨hchosen.trans hx, List.forall_mem_cons.2 ⟨hchosen.trans hz, hzs⟩⟩

/-- The first of the least elements is not above any other. -/
theorem le_of_firstLeast? (h : firstLeast? (fun y z => Scalar.precedes (f y) (f z)) xs = some x) :
    ∀ y ∈ xs, f x ≤ f y := by
  cases xs with
  | nil => cases h
  | cons y ys =>
    cases h
    refine foldl_choice_le (fun x y => ?_) y ys
    split
    · next hlt => exact ⟨(of_decide_eq_true hlt : f y < f x).le, le_rfl⟩
    · next hge => exact ⟨le_rfl, not_lt.1 fun hlt => hge (decide_eq_true hlt)⟩

/-- The last of the greatest elements is not below any other. -/
theorem ge_of_lastGreatest?
    (h : lastGreatest? (fun y z => Scalar.precedes (f y) (f z)) xs = some x) :
    ∀ y ∈ xs, f y ≤ f x := by
  cases xs with
  | nil => cases h
  | cons y ys =>
    cases h
    refine fun z hz => neg_le_neg_iff.1 ?_
    refine foldl_choice_le (f := fun y => -f y) (fun x y => ?_) y ys z hz
    simp only [neg_le_neg_iff]
    split
    · next hlt => exact ⟨le_rfl, (of_decide_eq_true hlt : f y < f x).le⟩
    · next hge => exact ⟨not_lt.1 fun hlt => hge (decide_eq_true hlt), le_rfl⟩

omit [Reading] in
/-- Elements in order are one of the pairs. -/
theorem mem_pairs {x y : β} (h : [x, y].Sublist xs) : (x, y) ∈ pairs xs := by
  induction xs with
  | nil => cases h
  | cons z zs ih =>
    rw [pairs, List.mem_append]
    cases h with
    | cons _ h => exact .inr (ih h)
    | cons_cons _ h => exact .inl (List.mem_map_of_mem (List.singleton_sublist.1 h))

variable {cloud : Cloud ℝ} {i j : cloud.Place} {e : cloud.Place × cloud.Place}

/-! ## First tetrahedra -/

/-- What is farthest measures more than the tolerance. -/
theorem lt_of_farthest?_eq_some {skip : List cloud.Place} {measure : Vec3 ℝ → ℝ}
    (h : farthest? cloud skip measure = some i) : tolerance < measure (cloud.point i) := by
  have hfar := (List.mem_filter.1 (mem_of_lastGreatest?_eq_some h)).2
  exact of_decide_eq_true (Bool.and_eq_true_iff.1 hfar).2

namespace Seed

variable {s : Seed cloud}

/-- The corners of a tetrahedron with the sides opposite to them. -/
def opposites (s : Seed cloud) : List (cloud.Place × Triangle cloud.Place) :=
  [(s.d, ⟨s.a, s.b, s.c⟩), (s.b, ⟨s.a, s.c, s.d⟩), (s.c, ⟨s.a, s.d, s.b⟩), (s.a, ⟨s.b, s.d, s.c⟩)]

/-- The volume of a tetrahedron, as its sides have it in front. -/
noncomputable def volume (s : Seed cloud) : ℝ := rise ⟨s.a, s.b, s.c⟩ s.d

/-- A corner spans the volume of the tetrahedron with the side opposite to it, on which all other
    corners are, and the center a fourth of it. -/
theorem opposite {k : cloud.Place} {t : Triangle cloud.Place} (h : (k, t) ∈ s.opposites) :
    rise t k = s.volume ∧ (t.map cloud.point).volumeTo s.center = s.volume / 4 ∧
      ∀ i ∈ s.corners, i = k ∨ i ∈ t.toList := by
  have hfour : (4.0 : ℝ) = 4 := by norm_num
  simp only [opposites, List.mem_cons, List.not_mem_nil, or_false, Prod.mk.injEq] at h
  rcases h with ⟨rfl, rfl⟩ | ⟨rfl, rfl⟩ | ⟨rfl, rfl⟩ | ⟨rfl, rfl⟩
  all_goals
    refine ⟨?_, ?_, ?_⟩
    · simp only [rise, volume, Triangle.volumeTo_eq, Triangle.map] <;> ring
    · simp only [rise, volume, Triangle.volumeTo_eq, Triangle.map, center, Vec3.add_eq, Vec3.div_eq,
        hfour]
      ring
    · simp only [corners, Triangle.toList, List.mem_cons, List.not_mem_nil, or_false]
      tauto

omit [Reading] in
/-- Every corner has a side opposite to it. -/
theorem exists_opposite {k : cloud.Place} (hk : k ∈ s.corners) : ∃ t, (k, t) ∈ s.opposites := by
  simp only [corners, List.mem_cons, List.not_mem_nil, or_false] at hk
  simp only [opposites, List.mem_cons, Prod.mk.injEq]
  rcases hk with rfl | rfl | rfl | rfl
  · exact ⟨_, .inr (.inr (.inr (.inl ⟨rfl, rfl⟩)))⟩
  · exact ⟨_, .inr (.inl ⟨rfl, rfl⟩)⟩
  · exact ⟨_, .inr (.inr (.inl ⟨rfl, rfl⟩))⟩
  · exact ⟨_, .inl ⟨rfl, rfl⟩⟩

/-- A corner of a tetrahedron spans its volume with a side, or none. -/
theorem rise_eq_or {k : cloud.Place} {t : Triangle cloud.Place} (h : (k, t) ∈ s.opposites)
    (hi : i ∈ s.corners) : i = k ∧ rise t i = s.volume ∨ rise t i = 0 := by
  obtain ⟨hk, -, hothers⟩ := opposite h
  rcases hothers i hi with rfl | hi
  · exact .inl ⟨rfl, hk⟩
  · exact .inr (rise_corner hi)

/-- The faces of a tetrahedron are over its sides. -/
theorem facets_faces (s : Seed cloud) :
    facets s.faces = (s.opposites.map Prod.snd).map (Facet.make s.center) :=
  facets_parkAll _ _

/-- The sides of a tetrahedron are turned around if they have its corners in front. -/
theorem corners_make_side {k : cloud.Place} {t : Triangle cloud.Place}
    (h : (k, t) ∈ s.opposites) :
    (Facet.make s.center t).corners = if 0 < s.volume then t.flip else t := by
  rw [Facet.corners_make, (opposite h).2.1]
  exact if_congr (div_pos_iff_of_pos_right four_pos) rfl rfl

/-- A face of a tetrahedron is one of its sides, turned around or not. -/
theorem exists_side {f : Facet cloud} (hf : f ∈ facets s.faces) :
    ∃ k t, (k, t) ∈ s.opposites ∧ f.corners = if 0 < s.volume then t.flip else t := by
  rw [facets_faces, List.map_map] at hf
  obtain ⟨⟨k, t⟩, hside, rfl⟩ := List.mem_map.1 hf
  exact ⟨k, t, hside, corners_make_side hside⟩

/-- The corners of the faces of a tetrahedron are its own. -/
theorem mem_corners (hi : IsCorner s.faces i) : i ∈ s.corners := by
  obtain ⟨f, hf, hi⟩ := hi
  obtain ⟨k, t, hside, hcorners⟩ := exists_side hf
  have hmem : i ∈ t.toList := by
    rw [hcorners] at hi
    split at hi
    · simp only [Triangle.toList, Triangle.flip, List.mem_cons] at hi ⊢
      tauto
    · exact hi
  simp only [opposites, List.mem_cons, List.not_mem_nil, or_false, Prod.mk.injEq] at hside
  rcases hside with ⟨-, rfl⟩ | ⟨-, rfl⟩ | ⟨-, rfl⟩ | ⟨-, rfl⟩
  all_goals
    simp only [Triangle.toList, corners, List.mem_cons, List.not_mem_nil, or_false] at hmem ⊢
    tauto

/-- All faces of a tetrahedron are its sides turned around, or all of them are its sides. -/
theorem surface_faces (s : Seed cloud) : surface s.faces =
    if 0 < s.volume then (s.opposites.map Prod.snd).map Triangle.flip
    else s.opposites.map Prod.snd := by
  have hcorners : ∀ t ∈ s.opposites.map Prod.snd,
      (Facet.make s.center t).corners = if 0 < s.volume then t.flip else t :=
    List.forall_mem_map.2 fun _ h => corners_make_side h
  rw [surface_eq_map_facets, facets_faces, List.map_map]
  refine (List.map_congr_left hcorners).trans ?_
  split
  · rfl
  · exact List.map_id _

/-- The sides of a tetrahedron with a volume are a closed surface. -/
theorem closed_opposites (h : s.volume ≠ 0) : Closed (s.opposites.map Prod.snd) := by
  have hnot {k : cloud.Place} {t : Triangle cloud.Place} (hk : (k, t) ∈ s.opposites) :
      k ∉ t.toList := fun hmem => h ((opposite hk).1.symm.trans (rise_corner hmem))
  have hnodup : s.corners.Nodup := by
    have hd := hnot (k := s.d) (t := ⟨s.a, s.b, s.c⟩) (by simp [opposites])
    have hb := hnot (k := s.b) (t := ⟨s.a, s.c, s.d⟩) (by simp [opposites])
    have hc := hnot (k := s.c) (t := ⟨s.a, s.d, s.b⟩) (by simp [opposites])
    simp only [Triangle.toList, List.mem_cons, List.not_mem_nil, or_false, not_or] at hd hb hc
    simp [corners, Ne.symm hb.1, Ne.symm hc.1, Ne.symm hd.1, hb.2.1, hb.2.2, hc.2.1]
  -- The sides are those of a tetrahedron with numbers for corners.
  have hclosed : Closed ([⟨0, 1, 2⟩, ⟨0, 2, 3⟩, ⟨0, 3, 1⟩, ⟨1, 3, 2⟩] : List (Triangle (Fin 4))) :=
    ⟨by decide, by decide⟩
  exact hclosed.map (P := fun _ => True) (fun _ _ => ⟨trivial, trivial, trivial⟩)
    fun i j _ _ heq => List.nodup_iff_injective_get.1 hnodup heq

/-- The faces of a tetrahedron have its corners behind them, or in their plane. -/
theorem rise_le_of_mem_facets {f : Facet cloud} (hf : f ∈ facets s.faces) (hi : i ∈ s.corners) :
    rise f.corners i ≤ 0 := by
  obtain ⟨k, t, hside, hcorners⟩ := exists_side hf
  have hrise := rise_eq_or hside hi
  rw [hcorners, rise]
  split
  · next hpos =>
    rw [Triangle.map_flip, Triangle.volumeTo_flip, neg_nonpos]
    rcases hrise with ⟨-, hrise⟩ | hrise
    · exact hpos.le.trans_eq hrise.symm
    · exact hrise.ge
  · next hneg =>
    rcases hrise with ⟨-, hrise⟩ | hrise
    · exact hrise.trans_le (not_lt.1 hneg)
    · exact hrise.le

/-- The faces of a tetrahedron with a volume have its center strictly behind them. -/
theorem volumeTo_center_lt (h : s.volume ≠ 0) {f : Facet cloud} (hf : f ∈ facets s.faces) :
    (f.corners.map cloud.point).volumeTo s.center < 0 := by
  obtain ⟨k, t, hside, hcorners⟩ := exists_side hf
  rw [hcorners]
  split
  · next hpos =>
    rw [Triangle.map_flip, Triangle.volumeTo_flip, (opposite hside).2.1]
    linarith
  · next hneg =>
    have hlt : s.volume < 0 := (not_lt.1 hneg).lt_of_ne h
    rw [(opposite hside).2.1]
    linarith

/-- No corner of a tetrahedron with a volume is inside of an edge. -/
theorem not_between (h : s.volume ≠ 0) (hstart : e.1 ∈ s.corners) (hend : e.2 ∈ s.corners)
    (hne : e.1 ≠ e.2) (hi : i ∈ s.corners) : ¬Between e i := by
  intro hbetween
  -- The side opposite to the end tells how far the point is on the way there.
  obtain ⟨t, hside⟩ := exists_opposite hend
  obtain ⟨r, hr, hr', hshare⟩ := hbetween.exists_rise_eq
  have hrise := hshare t
  rw [(opposite hside).1, (rise_eq_or hside hstart).resolve_left fun heq => hne heq.1, mul_zero,
    zero_add] at hrise
  rcases rise_eq_or hside hi with ⟨-, hvolume⟩ | hzero
  · exact hr'.ne (mul_right_cancel₀ h (hrise.symm.trans (hvolume.trans (one_mul _).symm)))
  · exact mul_ne_zero hr.ne' h (hrise.symm.trans hzero)

/-- The tetrahedron is a closed convex surface, if it has a volume. -/
theorem proper (h : s.volume ≠ 0) (hresolved : Resolved cloud) : Proper s.center s.faces := by
  have hclosed : Closed (surface s.faces) := by
    rw [surface_faces]
    split
    · exact (closed_opposites h).flip
    · exact closed_opposites h
  have hsees (f : Facet cloud) (hf : f ∈ facets s.faces) (i : cloud.Place) :
      f.sees i = true ↔ 0 < rise f.corners i := by
    rw [facets_faces] at hf
    obtain ⟨t, -, rfl⟩ := List.mem_map.1 hf
    exact Facet.sees_make_iff hresolved i
  refine ⟨hclosed, hsees, fun f => volumeTo_center_lt h,
    fun f hf i hi => rise_le_of_mem_facets hf (mem_corners hi), fun f hf e he i hi => ?_,
    fun i => settled_parkAll ?_⟩
  · obtain ⟨hstart, hend⟩ := isCorner_of_mem_edges hf he
    refine not_between h (mem_corners hstart) (mem_corners hend) (hclosed.fst_ne_snd ?_)
      (mem_corners hi)
    rw [surface_eq_map_facets]
    exact List.mem_flatMap.2 ⟨_, List.mem_map_of_mem hf, he⟩
  · by_cases hi : i ∈ s.corners
    · refine .inl (.inr fun f hf => Bool.eq_false_iff.2 fun hseen => ?_)
      have hmem : f ∈ facets s.faces := by rwa [faces, facets_parkAll]
      exact ((hsees f hmem i).1 hseen).not_ge (rise_le_of_mem_facets hmem hi)
    · exact .inr (List.mem_filter.2 ⟨List.mem_finRange i, by simpa using hi⟩)

/-- A first tetrahedron has a volume. -/
theorem volume_ne_zero {first : cloud.Place} (h : seed cloud first = .ok s) : s.volume ≠ 0 := by
  rw [seed] at h
  generalize widest cloud first = ends at h
  obtain ⟨a, b⟩ := ends
  dsimp only at h
  split at h
  · cases h
  · next c hc =>
    split at h
    · cases h
    · next d hd =>
      cases h
      -- Its last corner is off the plane of the others.
      have hfar : tolerance < |(Triangle.map cloud.point ⟨a, b, c⟩).height (cloud.point d)| := by
        rw [Triangle.height, ← Vec3.dot_sub]
        exact lt_of_farthest?_eq_some hd
      intro hzero
      have hflat : (Triangle.map cloud.point ⟨a, b, c⟩).volumeTo (cloud.point d) = 0 := hzero
      rw [Triangle.height_eq, hflat, zero_div, abs_zero] at hfar
      exact hfar.not_gt tolerance_pos

end Seed

/-- The square of the distance of a pair of points. -/
noncomputable def gap (r : cloud.Place × cloud.Place) : ℝ :=
  (cloud.point r.1).distanceSq (cloud.point r.2)

/-- A pair that is farthest apart of those before it, as long as no later one is farther. -/
theorem foldl_gap (rs : List (cloud.Place × cloud.Place)) (best : ℝ × cloud.Place × cloud.Place)
    (h : best.1 = gap best.2) :
    let widest := rs.foldl (fun best r => if best.1 < gap r then (gap r, r) else best) best
    best.1 ≤ gap widest.2 ∧ ∀ r ∈ rs, gap r ≤ gap widest.2 := by
  induction rs generalizing best with
  | nil => exact ⟨h.le, List.forall_mem_nil _⟩
  | cons r rs ih =>
    rw [List.foldl_cons]
    split
    · next hlt =>
      obtain ⟨hr, hrs⟩ := ih (gap r, r) rfl
      exact ⟨hlt.le.trans hr, List.forall_mem_cons.2 ⟨hr, hrs⟩⟩
    · next hge =>
      obtain ⟨hbest, hrs⟩ := ih best h
      exact ⟨hbest, List.forall_mem_cons.2 ⟨(not_lt.1 hge).trans hbest, hrs⟩⟩

/-- No two extreme points are farther apart than the widest ones. -/
theorem gap_le_widest (first : cloud.Place) :
    ∀ r ∈ pairs (extremes cloud), gap r ≤ gap (widest cloud first) := by
  have hzero : (0.0 : ℝ) = gap (first, first) := by
    rw [Scalar.zero_eq]
    exact (Vec3.lengthSq_sub_self _).symm
  exact (foldl_gap _ (0.0, first, first) hzero).2

/-- The least and the greatest place along an axis are one of the pairs of extreme places. -/
theorem exists_extremes {along : Vec3 ℝ → ℝ} (h : along ∈ [Vec3.x, Vec3.y, Vec3.z])
    (i : cloud.Place) : ∃ l g, (l, g) ∈ pairs (extremes cloud) ∧
      ∀ k, along (cloud.point l) ≤ along (cloud.point k) ∧
        along (cloud.point k) ≤ along (cloud.point g) := by
  have hne : List.finRange cloud.size ≠ [] := List.ne_nil_of_mem (List.mem_finRange i)
  obtain ⟨j, js, hall⟩ := List.exists_cons_of_ne_nil hne
  obtain ⟨l, hl⟩ : ∃ l, firstLeast? (fun i j => Scalar.precedes (along (cloud.point i))
      (along (cloud.point j))) (List.finRange cloud.size) = some l := by
    rw [hall]
    exact ⟨_, rfl⟩
  obtain ⟨g, hg⟩ : ∃ g, lastGreatest? (fun i j => Scalar.precedes (along (cloud.point i))
      (along (cloud.point j))) (List.finRange cloud.size) = some g := by
    rw [hall]
    exact ⟨_, rfl⟩
  refine ⟨l, g, mem_pairs ?_, fun k =>
    ⟨le_of_firstLeast? hl k (List.mem_finRange k), ge_of_lastGreatest? hg k (List.mem_finRange k)⟩⟩
  refine List.Sublist.trans ?_ ((List.singleton_sublist.2 h).flatMap _)
  rw [List.flatMap_singleton]
  dsimp only
  rw [hl, hg]
  exact List.Sublist.refl _

/-- The widest extreme points are different, if there are different points. -/
theorem point_widest_ne (hne : cloud.point i ≠ cloud.point j) (first : cloud.Place) :
    cloud.point (widest cloud first).1 ≠ cloud.point (widest cloud first).2 := by
  intro heq
  have hzero : gap (widest cloud first) = 0 := by
    rw [gap, heq]
    exact Vec3.lengthSq_sub_self _
  have hsame (along : Vec3 ℝ → ℝ) (halong : along ∈ [Vec3.x, Vec3.y, Vec3.z]) :
      along (cloud.point i) = along (cloud.point j) := by
    obtain ⟨l, g, hpair, hbetween⟩ := exists_extremes halong i
    have hgap := gap_le_widest first _ hpair
    rw [hzero] at hgap
    have hends : cloud.point l = cloud.point g :=
      Vec3.eq_of_lengthSq_sub_eq_zero (hgap.antisymm (Vec3.lengthSq_nonneg _))
    have hi := hbetween i
    have hj := hbetween j
    rw [hends] at hi hj
    exact (hi.2.antisymm hi.1).trans (hj.2.antisymm hj.1).symm
  refine hne ?_
  have hx : (cloud.point i).x = (cloud.point j).x := hsame _ (by simp)
  have hy : (cloud.point i).y = (cloud.point j).y := hsame _ (by simp)
  have hz : (cloud.point i).z = (cloud.point j).z := hsame _ (by simp)
  generalize cloud.point i = p at hx hy hz
  generalize cloud.point j = q at hx hy hz
  obtain ⟨x, y, z⟩ := p
  exact Vec3.mk.injEq .. ▸ ⟨hx, hy, hz⟩

/-- There is a farthest point, if one measures more than the tolerance. -/
theorem exists_farthest? {skip : List cloud.Place} {measure : Vec3 ℝ → ℝ} (hi : i ∉ skip)
    (h : tolerance < measure (cloud.point i)) : ∃ k, farthest? cloud skip measure = some k := by
  refine Option.isSome_iff_exists.1 ?_
  rw [farthest?, isSome_lastGreatest?]
  have hmem : i ∈ (List.finRange cloud.size).filter fun i =>
      !skip.contains i && decide (tolerance < measure (cloud.point i)) := by
    refine List.mem_filter.2 ⟨List.mem_finRange i, ?_⟩
    simp [hi, h]
  simpa using List.ne_nil_of_mem hmem

/-- What is not higher above three points of a resolved cloud than the tolerance, nor lower, is in
    their plane. -/
theorem Resolved.rise_eq_zero (h : Resolved cloud) {t : Triangle cloud.Place}
    (hnear : |(t.map cloud.point).height (cloud.point i)| ≤ tolerance) : rise t i = 0 := by
  obtain ⟨hlow, hhigh⟩ := abs_le.1 hnear
  have hle (u : Triangle cloud.Place)
      (hu : (u.map cloud.point).height (cloud.point i) ≤ tolerance) : rise u i ≤ 0 := by
    refine not_lt.1 fun hpos => hu.not_gt (h u i ?_)
    rw [Scalar.zero_eq]
    exact Triangle.height_pos_iff.2 hpos
  have hflip := hle t.flip (by rw [Triangle.map_flip, Triangle.height_flip]; linarith)
  rw [rise, Triangle.map_flip, Triangle.volumeTo_flip] at hflip
  exact (hle t hhigh).antisymm (neg_nonpos.1 hflip)

variable {t : Triangle cloud.Place} {a b c : cloud.Place}

/-- If not all points of a resolved cloud are in one plane, one of them is off the line through two
    others. -/
theorem Resolved.exists_off_line (h : Resolved cloud) (hrise : rise t i ≠ 0)
    (hlength : (cloud.point b - cloud.point a).lengthSq ≠ 0) :
    ∃ c, farthest? cloud [a, b] (fun r => ((r - cloud.point a).cross
      (cloud.point b - cloud.point a).normalizeOrZero).length) = some c := by
  by_contra hnone
  refine hrise (Triangle.volumeTo_eq_zero_of_line (P := fun p => ∃ k, cloud.point k = p) hlength ?_
    ⟨⟨_, rfl⟩, ⟨_, rfl⟩, ⟨_, rfl⟩⟩ ⟨i, rfl⟩)
  rintro _ _ ⟨c, rfl⟩ ⟨r, rfl⟩
  change rise ⟨a, b, c⟩ r = 0
  by_cases hr : r ∈ [a, b]
  · exact rise_corner ((List.sublist_append_left [a, b] [c]).subset hr)
  · -- A point that is close to the line is close to every plane through it.
    refine h.rise_eq_zero ?_
    rw [Triangle.height, ← Vec3.dot_sub]
    refine (Vec3.abs_dot_le_length_cross (Vec3.lengthSq_normalizeOrZero_le _)
      (Vec3.lengthSq_normalizeOrZero hlength) ?_ _).trans
        (not_lt.1 fun hfar => hnone (exists_farthest? hr hfar))
    rw [Vec3.normalizeOrZero_eq, Vec3.normalizeOrZero_eq]
    simp only [Triangle.map, Vec3.dot_eq, Vec3.mul_eq, Vec3.cross]
    ring

/-- If not all points of a resolved cloud are in one plane, one of them is off the plane through
    three others. -/
theorem Resolved.exists_off_plane (h : Resolved cloud) (hrise : rise t i ≠ 0)
    (harea : (Triangle.map cloud.point ⟨a, b, c⟩).doubleArea ≠ 0) :
    ∃ d, farthest? cloud [a, b, c] (fun r => Scalar.abs
      (((cloud.point b - cloud.point a).cross (cloud.point c - cloud.point a)).normalizeOrZero.dot
        (r - cloud.point a))) = some d := by
  by_contra hnone
  refine hrise (Triangle.volumeTo_eq_zero_of_plane (P := fun p => ∃ k, cloud.point k = p) harea ?_
    ⟨⟨_, rfl⟩, ⟨_, rfl⟩, ⟨_, rfl⟩⟩ ⟨i, rfl⟩)
  rintro _ ⟨r, rfl⟩
  change rise ⟨a, b, c⟩ r = 0
  by_cases hr : r ∈ [a, b, c]
  · exact rise_corner hr
  · refine h.rise_eq_zero ?_
    rw [Triangle.height, ← Vec3.dot_sub]
    exact not_lt.1 fun hfar => hnone (exists_farthest? hr hfar)

/-- Three points have an area, if the third is off the line through the others. -/
theorem doubleArea_ne_zero (h : farthest? cloud [a, b] (fun r => ((r - cloud.point a).cross
      (cloud.point b - cloud.point a).normalizeOrZero).length) = some c) :
    (Triangle.map cloud.point ⟨a, b, c⟩).doubleArea ≠ 0 := by
  intro harea
  have hfar := lt_of_farthest?_eq_some h
  have hcross : ((cloud.point b - cloud.point a).cross (cloud.point c - cloud.point a)).lengthSq
      = 0 := by
    rw [← Vec3.length_mul_length]
    exact mul_eq_zero_of_left harea _
  have hflat : ((cloud.point c - cloud.point a).cross
      (cloud.point b - cloud.point a).normalizeOrZero).lengthSq = 0 := by
    rw [Vec3.normalizeOrZero_eq, Vec3.lengthSq_cross_mul, hcross, zero_mul]
  rw [← Vec3.length_mul_length] at hflat
  rw [mul_self_eq_zero.1 hflat] at hfar
  exact hfar.not_gt tolerance_pos

/-- A resolved cloud has a first tetrahedron, unless all its points are in one plane. -/
theorem exists_seed (hresolved : Resolved cloud) (hrise : rise t i ≠ 0) (first : cloud.Place) :
    ∃ s, seed cloud first = .ok s := by
  have hpoints : cloud.point t.a ≠ cloud.point t.b := by
    have hnodup := Triangle.nodup_of_volumeTo_ne_zero hrise
    simp only [Triangle.map, Triangle.toList, List.nodup_cons, List.mem_cons, not_or] at hnodup
    exact hnodup.2.1.1
  have hne := point_widest_ne hpoints first
  rw [seed]
  generalize widest cloud first = ends at hne
  obtain ⟨a, b⟩ := ends
  dsimp only at hne ⊢
  obtain ⟨c, hc⟩ := hresolved.exists_off_line hrise
    fun hzero => hne (Vec3.eq_of_lengthSq_sub_eq_zero hzero).symm
  obtain ⟨d, hd⟩ := hresolved.exists_off_plane hrise (doubleArea_ne_zero hc)
  rw [hc]
  dsimp only
  rw [hd]
  exact ⟨_, rfl⟩

end Hull

end Solids
