import Mathlib.Analysis.SpecialFunctions.Trigonometric.Basic
import Solids.Proofs.Exact.Box
import Solids.Proofs.Exact.Mesh
import Solids.Proofs.Exact.Turn

/-!
# The extent of a kind over exact numbers

The box that is found for a kind without building anything holds the mesh that is made of it
(`Kind.within_bounds`). Two ways lead to the box and to the mesh, and they meet kind by kind:

* round shapes are rings around the axis, of a radius and at heights of one half at most;
* what is swept straight moves the points of the profile by half its normal, and so does the box;
* what is swept along a rail turns the points of the profile around the origin and moves them to
  points of the rail, so they stay within the radius of the profile around the box of the rail;
* what is revolved keeps the height of its points and their distance from the axis;
* tubes, fills and hulls are made of points that lie between the given ones.
-/

namespace Solids

variable [Reading]

/-! ## Unit shapes -/

namespace Primitive

/-- The unit box holds a point that is one half from the origin at most along each axis. -/
theorem holds_unit {p : Vec3 ℝ} (hx : |p.x| ≤ 1 / 2) (hy : |p.y| ≤ 1 / 2) (hz : |p.z| ≤ 1 / 2) :
    Bounds.unit.Holds p := by
  have hlow : (Bounds.unit : Bounds ℝ).min = ⟨-(1 / 2), -(1 / 2), -(1 / 2)⟩ := by
    norm_num [Bounds.unit, Vec3.splat]
  have hhigh : (Bounds.unit : Bounds ℝ).max = ⟨1 / 2, 1 / 2, 1 / 2⟩ := by
    norm_num [Bounds.unit, Vec3.splat]
  rw [Bounds.Holds, hlow, hhigh]
  exact ⟨⟨(abs_le.1 hx).1, (abs_le.1 hy).1, (abs_le.1 hz).1⟩,
    (abs_le.1 hx).2, (abs_le.1 hy).2, (abs_le.1 hz).2⟩

/-- The unit cube is in the unit box. -/
theorem within_cube : (cube : Mesh ℝ).Within Bounds.unit.Holds := by
  intro p hp
  obtain ⟨i, _, rfl⟩ := List.mem_map.1 (List.mem_toArray.1 hp)
  have hside (b : Prop) [Decidable b] : |if b then (0.5 : ℝ) else -0.5| ≤ 1 / 2 := by
    split <;> norm_num [abs_le]
  exact holds_unit (hside _) (hside _) (hside _)

/-- A half of a number of no more than one is no more than one half. -/
theorem abs_mul_le_half {r t : ℝ} (hr : |r| ≤ 1 / 2) (ht : |t| ≤ 1) : |r * t| ≤ 1 / 2 := by
  rw [abs_mul]
  calc |r| * |t| ≤ 1 / 2 * 1 := mul_le_mul hr ht (abs_nonneg t) (by norm_num)
    _ = 1 / 2 := mul_one _

/-- A ring around the axis is in the unit box, if its radius and height are. -/
theorem holds_of_mem_ring {n : Nat} {radius height : ℝ} (hradius : |radius| ≤ 1 / 2)
    (hheight : |height| ≤ 1 / 2) : ∀ p ∈ ring n radius height, Bounds.unit.Holds p := by
  refine List.forall_mem_map.2 fun j _ => holds_unit ?_ hheight ?_
  · exact abs_mul_le_half hradius (Real.abs_cos_le_one _)
  · exact abs_mul_le_half ((abs_neg radius).trans_le hradius) (Real.abs_sin_le_one _)

omit [Reading] in
/-- A mesh over rings is where these are. -/
theorem within_overRings {P : Vec3 ℝ → Prop} {rings : List (List (Vec3 ℝ))}
    (h : ∀ ring ∈ rings, ∀ p ∈ ring, P p) (triangles : List (Triangle Nat)) :
    (overRings rings triangles).Within P := by
  intro p hp
  obtain ⟨ring, hring, hp⟩ := List.mem_flatten.1 (List.mem_toArray.1 hp)
  exact h ring hring p hp

/-- Cylinders are in the unit box. -/
theorem within_of_cylinder {segments : UInt32} {m : Mesh ℝ} (h : cylinder segments = .ok m) :
    m.Within Bounds.unit.Holds := by
  rw [cylinder] at h
  split at h
  · cases h
  · cases h
    refine within_overRings (fun ring hring => ?_) _
    simp only [List.mem_cons, List.not_mem_nil, or_false] at hring
    rcases hring with rfl | rfl <;> refine holds_of_mem_ring ?_ ?_ <;> norm_num [abs_le]

/-- Cones are in the unit box. -/
theorem within_of_cone {segments : UInt32} {m : Mesh ℝ} (h : cone segments = .ok m) :
    m.Within Bounds.unit.Holds := by
  rw [cone] at h
  split at h
  · cases h
  · cases h
    refine within_overRings (fun ring hring => ?_) _
    simp only [List.mem_cons, List.not_mem_nil, or_false] at hring
    rcases hring with rfl | rfl
    · refine holds_of_mem_ring ?_ ?_ <;> norm_num [abs_le]
    · refine List.forall_mem_singleton.2 (holds_unit ?_ ?_ ?_) <;> norm_num [abs_le]

/-- Spheres are in the unit box. -/
theorem within_sphereOver (n rings : Nat) :
    (sphereOver n rings : Mesh ℝ).Within Bounds.unit.Holds := by
  refine within_overRings (List.forall_mem_map.2 fun i _ => ?_) _
  have hhalf : |(0.5 : ℝ)| ≤ 1 / 2 := by norm_num [abs_le]
  exact holds_of_mem_ring (abs_mul_le_half hhalf (Real.abs_sin_le_one _))
    (abs_mul_le_half hhalf (Real.abs_cos_le_one _))

/-- A sphere is in the unit box, if there is one. -/
theorem sphere_outcome (segments : UInt32) : Outcome (sphere segments) True fun r =>
    ∀ m : Mesh ℝ, r = .ok m → m.Within Bounds.unit.Holds := by
  unfold sphere
  split
  · exact fun m hm => nomatch hm
  · refine (outcome_self (ringCount segments)).bind (fun _ => trivial) fun rings _ m hm => ?_
    cases hm
    exact within_sphereOver _ _

end Primitive

/-! ## Sweeps -/

namespace Path

/-- The box of a path holds its points. -/
theorem holds_bounds (path : Path ℝ) : ∀ q ∈ path.points, path.bounds.Holds q.position :=
  fun _ hq => Bounds.holds_ofPoints (List.mem_map_of_mem hq)

/-- The box of a path holds its ring. -/
theorem holds_of_ring? {path : Path ℝ} {r : List (Vec3 ℝ) × Bool} (hr : path.ring? = some r) :
    ∀ p ∈ r.1, path.bounds.Holds p :=
  forall_mem_of_ring? path.bounds.convex_holds path.holds_bounds hr

/-- The box of a path that is swept straight holds the points of the path's own box where they are
    swept to. -/
theorem holds_extrusionBounds {path : Path ℝ} {p : Vec3 ℝ} (hp : path.bounds.Holds p) :
    path.extrusionBounds.Holds (p - path.faceNormal * (0.5 : ℝ)) ∧
      path.extrusionBounds.Holds (p + path.faceNormal * (0.5 : ℝ)) := by
  have hhalf : path.faceNormal * (0.5 : ℝ) = path.faceNormal / (2.0 : ℝ) := by
    simp only [Vec3.mul_eq, Vec3.div_eq, Vec3.mk.injEq, Scalar.half_eq, Scalar.two_eq]
    refine ⟨?_, ?_, ?_⟩ <;> ring
  have hback (v : Vec3 ℝ) : p - v = p + -v := by
    simp only [Vec3.sub_eq, Vec3.add_eq, Vec3.neg_eq, sub_eq_add_neg]
  rw [hback, hhalf]
  exact ⟨(Bounds.covers_union_left _ _).holds (hp.translated _),
    (Bounds.covers_union_right _ _).holds (hp.translated _)⟩

/-- What is swept straight is in the box found for it. -/
theorem within_extrude (profile : Path ℝ) :
    profile.extrude.Within profile.extrusionBounds.Holds := by
  unfold extrude
  split
  · exact Mesh.within_empty
  · next points closed hring =>
    have hpoints := holds_of_ring? hring
    refine Sweep.within_stitch (fun ring hmem => ?_) _ _
    simp only [List.mem_cons, List.not_mem_nil, or_false] at hmem
    rcases hmem with rfl | rfl
    · exact List.forall_mem_map.2 fun p hp => (holds_extrusionBounds (hpoints p hp)).1
    · exact List.forall_mem_map.2 fun p hp => (holds_extrusionBounds (hpoints p hp)).2

/-- The radius of a path is not negative, and no point of it is farther from the origin. -/
theorem lengthSq_le_radius (path : Path ℝ) : 0 ≤ path.radius ∧
    ∀ q ∈ path.points, q.position.lengthSq ≤ path.radius * path.radius := by
  have h := Scalar.le_foldl_greater 0.0 (path.points.map fun p => p.position.length)
  obtain ⟨hzero, hlengths⟩ := List.forall_mem_cons.1 h
  rw [Scalar.zero_eq] at hzero
  refine ⟨Scalar.zero_eq ▸ hzero, fun q hq => ?_⟩
  rw [← Vec3.length_mul_length]
  exact mul_self_le_mul_self (Vec3.length_nonneg _) (hlengths _ (List.mem_map_of_mem hq))

/-- What is swept along a rail is no farther from the box of the rail than the profile from the
    origin. -/
theorem within_extrudeAlong (profile rail : Path ℝ) (twist : ℝ) (align : Alignment) {r : ℝ}
    (hr : profile.radius ≤ r) :
    (profile.extrudeAlong rail twist align).Within (rail.bounds.expanded r).Holds := by
  unfold extrudeAlong
  split
  · next points closed track railClosed hprofile hrail =>
    obtain ⟨hnonneg, hradius⟩ := profile.lengthSq_le_radius
    have hnormal := profile.isUnit_faceNormal
    have hdirections := Sweep.isUnit_of_mem_tangents hnormal track railClosed
    have horientations := Sweep.isUnit_of_mem_orientations hnormal hdirections align
    refine Sweep.within_stitch (List.forall_mem_map.2 fun x hx => ?_) _ _
    obtain ⟨origin, way, orientation⟩ := x
    obtain ⟨horigin, hx⟩ := List.of_mem_zip hx
    obtain ⟨_, horientation⟩ := List.of_mem_zip hx
    -- The ball that the profile is in is kept by every turn, and moved to a point of the rail.
    refine List.forall_mem_map.2 fun p hp => ?_
    have hturn (angle : ℝ) := (horientations orientation horientation).mul
      (Rotation.isUnit_aroundAxis hnormal angle)
    have hlength : p.lengthSq ≤ r * r :=
      (forall_mem_of_ring? (Vec3.convex_ball _) hradius hprofile p hp).trans
        (mul_self_le_mul_self hnonneg hr)
    refine (holds_of_ring? hrail origin horigin).expanded ?_
    refine Vec3.abs_le_of_lengthSq_le (hnonneg.trans hr) ?_
    rw [(hturn _).lengthSq_apply_eq]
    exact hlength
  · exact Mesh.within_empty

/-- The box of a path that is revolved holds what is as high and as far from the axis as a point of
    the box of the path. -/
theorem holds_revolutionBounds {path : Path ℝ} {p : Vec3 ℝ} (hp : path.bounds.Holds p) {x z : ℝ}
    (h : x * x + z * z = p.x * p.x + p.z * p.z) : path.revolutionBounds.Holds ⟨x, p.y, z⟩ := by
  obtain ⟨⟨hx, hy, hz⟩, hx', hy', hz'⟩ := hp
  have hreach {l t u : ℝ} (hl : l ≤ t) (hu : t ≤ u) :
      t * t ≤ Scalar.greater |l| |u| * Scalar.greater |l| |u| := by
    rw [Scalar.greater_eq_max, ← abs_mul_abs_self t]
    exact mul_self_le_mul_self (abs_nonneg t) (abs_le_max_abs_abs hl hu)
  have hfar := add_le_add (hreach hx hx') (hreach hz hz')
  rw [← h] at hfar
  have hxsq : x ^ 2 ≤ x * x + z * z := by nlinarith [mul_self_nonneg z]
  have hzsq : z ^ 2 ≤ x * x + z * z := by nlinarith [mul_self_nonneg x]
  obtain ⟨hxlow, hxhigh⟩ := abs_le.1 (Real.abs_le_sqrt (hxsq.trans hfar))
  obtain ⟨hzlow, hzhigh⟩ := abs_le.1 (Real.abs_le_sqrt (hzsq.trans hfar))
  exact ⟨⟨hxlow, hy, hzlow⟩, hxhigh, hy', hzhigh⟩

/-- What is revolved is in the box found for it. -/
theorem within_of_lathe {profile : Path ℝ} {segments : UInt32} {m : Mesh ℝ}
    (h : profile.lathe segments = .ok m) : m.Within profile.revolutionBounds.Holds := by
  unfold lathe at h
  dsimp only at h
  split at h
  · cases h
  · split at h
    · cases h
      exact Mesh.within_empty
    · next points closed hring =>
      cases h
      refine Sweep.within_stitch (List.forall_mem_map.2 fun k _ => ?_) _ _
      refine List.forall_mem_map.2 fun p hp => ?_
      obtain ⟨x, z, himage, hsq⟩ := Rotation.apply_aroundY (turnAngle k segments.toNat) p
      rw [himage]
      exact holds_revolutionBounds (holds_of_ring? hring p hp) hsq

/-- A tube is in every convex set that holds its profiles. -/
theorem within_loft {P : Vec3 ℝ → Prop} (hP : Vec3.Convex P) {profiles : List (Path ℝ)}
    (h : ∀ path ∈ profiles, ∀ q ∈ path.points, P q.position) : (loft profiles).Within P := by
  unfold loft
  dsimp only
  split
  · refine Sweep.within_stitch (List.forall_mem_map.2 fun r hr => ?_) _ _
    obtain ⟨path, hpath, hr⟩ := List.mem_filterMap.1 hr
    exact Sweep.forall_mem_resample hP (forall_mem_of_ring? hP (h path hpath) hr) _ _
  · exact Mesh.within_empty

/-- What is filled is in the box of the path. -/
theorem within_fill (path : Path ℝ) : path.fill.Within path.bounds.Holds := by
  have hflat := forall_mem_flattened path.bounds.convex_holds path.holds_bounds
  unfold fill
  split
  · exact Mesh.within_empty
  · dsimp only
    split
    · exact Mesh.within_empty
    · exact fun p hp => hflat p (List.mem_of_mem_dropLast (List.mem_toArray.1 hp))

end Path

/-! ## Boxes of kinds -/

/-- Boxes put together hold what one of them holds. -/
theorem Bounds.holds_unionAll {bs : List (Bounds ℝ)} {b : Bounds ℝ} (hb : b ∈ bs) {p : Vec3 ℝ}
    (hp : b.Holds p) : (unionAll bs).Holds p :=
  (covers_foldl_union empty bs b (List.mem_cons_of_mem _ hb)).holds hp

namespace Path

/-- The box of a path that is swept straight is proper. -/
theorem proper_extrusionBounds (path : Path ℝ) : path.extrusionBounds.Proper := by
  have hpath : path.bounds.Proper := Bounds.proper_ofPoints _
  cases hempty : path.bounds.isEmpty with
  | true =>
    rw [extrusionBounds, Bounds.translated, Bounds.translated, if_pos hempty, if_pos hempty]
    exact hpath.union hpath
  | false =>
    -- Each corner of the path's own box lies between the places that it is swept to.
    have hholds (p : Vec3 ℝ) (hp : path.bounds.Holds p) : path.extrusionBounds.Holds p := by
      obtain ⟨hback, hfront⟩ := holds_extrusionBounds hp
      have hmiddle := path.extrusionBounds.convex_holds.lerp_half hback hfront
      convert hmiddle using 1
      simp only [Vec3.lerp_eq, Vec3.add_eq, Vec3.sub_eq, Vec3.mul_eq, Scalar.half_eq]
      obtain ⟨x, y, z⟩ := p
      simp only [Vec3.mk.injEq]
      refine ⟨?_, ?_, ?_⟩ <;> ring
    have hle := Bounds.isEmpty_eq_false_iff.1 hempty
    exact ⟨(hholds _ ⟨le_rfl, hle⟩).1.trans hpath.1, hpath.2.trans (hholds _ ⟨hle, le_rfl⟩).2⟩

/-- The box of a path that is revolved is proper. -/
theorem proper_revolutionBounds (path : Path ℝ) : path.revolutionBounds.Proper := by
  obtain ⟨⟨_, hy, _⟩, _, hy', _⟩ := Bounds.proper_ofPoints (path.points.map (·.position))
  have hinfinity := Scalar.infinity_pos
  have hradius (x z : ℝ) : -√(x * x + z * z) ≤ Scalar.infinity ∧
      -Scalar.infinity ≤ √(x * x + z * z) := by
    have hroot := Real.sqrt_nonneg (x * x + z * z)
    constructor <;> linarith
  exact ⟨⟨(hradius _ _).1, hy, (hradius _ _).1⟩, (hradius _ _).2, hy', (hradius _ _).2⟩

end Path

/-- The box of profiles swept along rails is empty without a profile, and else it is around the
    rails by a radius that no profile exceeds. -/
theorem Extrusion.railBounds_eq (options : Extrusion ℝ) (paths : List (Path ℝ)) :
    Path.usable paths = [] ∧ options.railBounds paths = .empty ∨
      ∃ r, 0 ≤ r ∧ (∀ profile ∈ Path.usable paths, profile.radius ≤ r) ∧
        options.railBounds paths =
          .unionAll ((Path.usable options.along).map fun rail => rail.bounds.expanded r) := by
  rw [railBounds]
  cases husable : Path.usable paths with
  | nil => exact .inl ⟨rfl, if_pos (beq_self_eq_true (-Scalar.infinity : ℝ))⟩
  | cons profile profiles =>
    have h := Scalar.le_foldl_greater (-Scalar.infinity)
      ((profile :: profiles).map Path.radius)
    have hradius := List.forall_mem_map.1 (List.forall_mem_cons.1 h).2
    generalize ((profile :: profiles).map Path.radius).foldl Scalar.greater
      (-Scalar.infinity) = r at hradius
    have hnonneg : 0 ≤ r :=
      profile.lengthSq_le_radius.1.trans (hradius profile List.mem_cons_self)
    -- The greatest radius is no longer the one that the search starts with.
    have hne : ¬(r == -Scalar.infinity) = true := by
      rw [beq_iff_eq]
      have hinfinity := Scalar.infinity_pos
      linarith
    exact .inr ⟨r, hnonneg, hradius, if_neg hne⟩

namespace Kind

/-- The box of a kind is proper. -/
theorem proper_bounds (kind : Kind ℝ) : kind.bounds.Proper := by
  have hunit : (Bounds.unit : Bounds ℝ).Proper := by
    have hinfinity := Scalar.infinity_pos
    have hlow : (-0.5 : ℝ) ≤ Scalar.infinity := by linarith
    have hhigh : -Scalar.infinity ≤ (0.5 : ℝ) := by linarith
    exact ⟨⟨hlow, hlow, hlow⟩, hhigh, hhigh, hhigh⟩
  have hall {β : Type} {xs : List β} {f : β → Bounds ℝ} (h : ∀ x ∈ xs, (f x).Proper) :
      (Bounds.unionAll (xs.map f)).Proper :=
    Bounds.proper_empty.foldl_union (List.forall_mem_map.2 h)
  cases kind with
  | cone | cylinder | sphere | cube => exact hunit
  | extrude paths options =>
    rw [bounds]
    split
    · exact hall fun path _ => path.proper_extrusionBounds
    · rcases options.railBounds_eq paths with ⟨_, heq⟩ | ⟨r, hr, _, heq⟩
      · exact heq ▸ Bounds.proper_empty
      · exact heq ▸ hall fun rail _ => (Bounds.proper_ofPoints _).expanded hr
  | lathe paths => exact hall fun path _ => path.proper_revolutionBounds
  | loft paths | fill paths => exact hall fun path _ => Bounds.proper_ofPoints _
  | hull | path | mesh => exact Bounds.proper_ofPoints _
  | group | combination | camera | light => exact Bounds.proper_empty

/-! ## Meshes of kinds -/

/-- Profiles that are swept are in the box found for them. -/
theorem within_extrusion (options : Extrusion ℝ) (paths : List (Path ℝ)) :
    Outcome (options.construct paths) True
      (Mesh.Within (extrude paths options).bounds.Holds) := by
  rw [Extrusion.construct, bounds]
  split
  · refine Mesh.within_mergeAll (List.forall_mem_map.2 fun path hpath p hp => ?_)
    exact Bounds.holds_unionAll (List.mem_map_of_mem hpath) (path.within_extrude p hp)
  · refine Mesh.within_mergeAll (List.forall_mem_flatMap.2 fun profile hprofile =>
      List.forall_mem_map.2 fun rail hrail p hp => ?_)
    rcases options.railBounds_eq paths with ⟨hnone, _⟩ | ⟨r, _, hradius, heq⟩
    · rw [hnone] at hprofile
      cases hprofile
    · rw [heq]
      exact Bounds.holds_unionAll (List.mem_map_of_mem hrail)
        (profile.within_extrudeAlong rail _ _ (hradius profile hprofile) p hp)

/-- The mesh of a kind is in every convex set that holds the box of the kind and the children that
    are used up. -/
theorem within_construct {P : Vec3 ℝ → Prop} (hP : Vec3.Convex P) (kind : Kind ℝ)
    (h : ∀ p, kind.bounds.Holds p → P p) {children : List (Node ℝ)}
    (hchildren : kind.rendersChildren = false → ∀ c ∈ children,
      Outcome c.flattened True (Mesh.Within P)) :
    Outcome (kind.construct children) True (Mesh.Within P) := by
  have himp {m : Mesh ℝ} (hm : m.Within kind.bounds.Holds) : m.Within P :=
    fun p hp => h p (hm p hp)
  cases kind with
  | group | path | camera | light => exact Mesh.within_empty
  | cube => exact himp Primitive.within_cube
  | cylinder => exact himp (Mesh.within_orEmpty fun _ => Primitive.within_of_cylinder)
  | cone => exact himp (Mesh.within_orEmpty fun _ => Primitive.within_of_cone)
  | sphere segments =>
    exact (Primitive.sphere_outcome segments).bind id fun _ hr => himp (Mesh.within_orEmpty hr)
  | extrude paths options => exact (within_extrusion options paths).imp id fun _ => himp
  | lathe paths segments =>
    refine (Mesh.within_mergeAll (List.forall_mem_map.2 fun path hpath =>
      Mesh.within_orEmpty fun m hm p hp => ?_)).imp id fun _ => himp
    exact Bounds.holds_unionAll (List.mem_map_of_mem hpath) (Path.within_of_lathe hm p hp)
  | loft paths =>
    refine himp (Path.within_loft (Bounds.convex_holds _) fun path hpath q hq => ?_)
    exact Bounds.holds_unionAll (List.mem_map_of_mem hpath) (path.holds_bounds q hq)
  | fill paths =>
    refine (Mesh.within_mergeAll (List.forall_mem_map.2 fun path hpath p hp => ?_)).imp id
      fun _ => himp
    have hmem := List.mem_map_of_mem (f := Path.bounds) (List.mem_of_mem_filter hpath)
    exact Bounds.holds_unionAll hmem (path.within_fill p hp)
  | hull points =>
    refine (Outcome.mapM (hchildren rfl)).bind id fun ms hms =>
      Mesh.within_orEmpty fun m hm => within_of_hullOf (fun p hp => ?_) hms hm
    exact h p (Bounds.holds_ofPoints hp)
  | combination op =>
    exact (Outcome.mapM (hchildren rfl)).bind id fun ms => Boolean.within_combineAll hP op
  | mesh m => exact himp fun p hp => Bounds.holds_ofPoints (Array.mem_toList_iff.2 hp)

end Kind

end Solids
