import Mathlib.Analysis.SpecialFunctions.Trigonometric.Basic
import Solids.Boolean.Polygon
import Solids.Path
import Solids.Proofs.Exact.Point
import Solids.Sweep.Loft

/-!
# Paths over exact numbers

What the library makes of the points of a path by walking part of the way from one to another lies
in every convex set that holds the points (`Vec3.Convex`):

* the flattened path, where it runs as parabolas (`Path.forall_mem_flattened`), and its ring;
* the points of a line that is resampled (`Sweep.forall_mem_resample`);
* the points where a plane cuts the way between two points on different sides of it
  (`Plane.crossing_mem`).
-/

namespace Solids

/-- The neighbors of an element are elements. -/
theorem mem_of_mem_neighbors {β : Type} {closed : Bool} {xs : List β}
    {n : Option β × β × Option β} (h : n ∈ neighbors closed xs) :
    (∀ x ∈ n.1, x ∈ xs) ∧ n.2.1 ∈ xs ∧ ∀ x ∈ n.2.2, x ∈ xs := by
  cases closed with
  | true =>
    obtain ⟨t, ht, rfl⟩ := List.mem_map.1 h
    obtain ⟨ha, hb, hc⟩ := mem_of_mem_turns ht
    exact ⟨fun _ hx => Option.mem_some.1 hx ▸ ha, hb, fun _ hx => Option.mem_some.1 hx ▸ hc⟩
  | false =>
    obtain ⟨before, x, after⟩ := n
    obtain ⟨hbefore, hrest⟩ := List.of_mem_zip h
    obtain ⟨hx, hafter⟩ := List.of_mem_zip hrest
    refine ⟨?_, hx, ?_⟩
    · rintro y rfl
      simpa using hbefore
    · rintro y rfl
      rcases List.mem_append.1 hafter with hy | hy
      · obtain ⟨z, hz, hzy⟩ := List.mem_map.1 hy
        exact Option.some.inj hzy ▸ List.mem_of_mem_drop hz
      · exact nomatch List.mem_singleton.1 hy

variable [Reading] {P : Vec3 ℝ → Prop} (hP : Vec3.Convex P)
include hP

/-! ## Flattened paths -/

namespace Path

/-- A parabola runs between its ends and the point that it is pulled toward. -/
theorem quadratic_mem {start control finish : Vec3 ℝ} (hstart : P start) (hcontrol : P control)
    (hfinish : P finish) {t : ℝ} (ht : 0 ≤ t) (ht' : t ≤ 1) :
    P (quadratic start control finish t) := by
  -- A parabola is the way between two points that walk along its legs.
  have hlerp : quadratic start control finish t =
      (start.lerp control t).lerp (control.lerp finish t) t := by
    simp only [quadratic, Vec3.lerp_eq, Vec3.add_eq, Vec3.mul_eq, Vec3.mk.injEq, Scalar.one_eq,
      Scalar.two_eq]
    refine ⟨?_, ?_, ?_⟩ <;> ring
  rw [hlerp]
  exact hP _ _ t (hP _ _ t hstart hcontrol ht ht') (hP _ _ t hcontrol hfinish ht ht') ht ht'

/-- What stands for a curved point lies between it and its neighbors. -/
theorem forall_mem_bentRun {before point after : Waypoint ℝ} (hbefore : P before.position)
    (hpoint : P point.position) (hafter : P after.position) :
    ∀ p ∈ bentRun before point after, P p := by
  have hstart : P (before.joint point) := by
    rw [Waypoint.joint]
    split
    · exact hP.lerp_half hbefore hpoint
    · exact hbefore
  have hfinish : P (if after.curved then point.position.lerp after.position 0.5
      else after.position) := by
    split
    · exact hP.lerp_half hpoint hafter
    · exact hafter
  rw [bentRun]
  generalize (if after.curved then point.position.lerp after.position 0.5
    else after.position) = finish at hfinish
  have hinner : ∀ p ∈ (List.range (curveSteps - 1)).map fun i =>
      quadratic (before.joint point) point.position finish
        (Scalar.ofNat (i + 1) / Scalar.ofNat curveSteps), P p := by
    refine List.forall_mem_map.2 fun i hi => ?_
    have hle : ((i + 1 : ℕ) : ℝ) ≤ (curveSteps : ℕ) :=
      Nat.cast_le.2 (Nat.le_of_lt (Nat.add_lt_of_lt_sub (List.mem_range.1 hi)))
    have hpos : (0 : ℝ) < (curveSteps : ℕ) := Nat.cast_pos.2 (by decide)
    exact quadratic_mem hP hstart hpoint hfinish (div_nonneg (Nat.cast_nonneg _) hpos.le)
      ((div_le_one hpos).2 hle)
  split
  · exact List.forall_mem_append.2 ⟨hinner, List.forall_mem_singleton.2 hfinish⟩
  · exact hinner

/-- The runs of a point lie between it and its neighbors. -/
theorem forall_mem_run {ps : List (Waypoint ℝ)} (h : ∀ q ∈ ps, P q.position) (closed : Bool) :
    ∀ p ∈ (neighbors closed ps).flatMap run, P p := by
  refine List.forall_mem_flatMap.2 fun n hn => ?_
  obtain ⟨hbefore, hpoint, hafter⟩ := mem_of_mem_neighbors hn
  obtain ⟨before, point, after⟩ := n
  have hself : ∀ p ∈ [point.position], P p := List.forall_mem_singleton.2 (h _ hpoint)
  unfold run
  split
  · next before point after heq =>
    cases heq
    split
    · exact forall_mem_bentRun hP (h _ (hbefore _ rfl)) (h _ hpoint) (h _ (hafter _ rfl))
    · exact hself
  · next heq =>
    cases heq
    exact hself

/-- A flattened path lies between the points of the path. -/
theorem forall_mem_flattened {path : Path ℝ} (h : ∀ q ∈ path.points, P q.position) :
    ∀ p ∈ path.flattened, P p := by
  rw [flattened]
  split
  · exact List.forall_mem_map.2 h
  · split
    · have hring := forall_mem_run hP (fun q hq => h q (List.mem_of_mem_dropLast hq)) true
      refine List.forall_mem_append.2 ⟨hring, fun p hp => hring p ?_⟩
      exact List.mem_of_head? (Option.mem_toList.1 hp)
    · exact forall_mem_run hP h false

/-- The ring of a path lies between the points of the path. -/
theorem forall_mem_of_ring? {path : Path ℝ} (h : ∀ q ∈ path.points, P q.position)
    {r : List (Vec3 ℝ) × Bool} (hr : path.ring? = some r) : ∀ p ∈ r.1, P p := by
  have hflat := forall_mem_flattened hP h
  unfold ring? at hr
  split at hr
  · cases hr
  · obtain ⟨_, hr⟩ := Option.ite_none_right_eq_some.1 hr
    cases hr
    dsimp only
    split
    · exact fun p hp => hflat p (List.mem_of_mem_dropLast hp)
    · exact hflat

end Path

/-! ## Resampled lines -/

namespace Sweep

/-- A point of a segment lies between its ends. -/
theorem pointAt_mem {s : Vec3 ℝ × Vec3 ℝ} (hs : P s.1) (hs' : P s.2) (distance : ℝ) :
    P (pointAt s distance) := by
  have hshare (x y : ℝ) : 0 ≤ (if 0.0 < y then Scalar.clampUnit (x / y) else 0.0) ∧
      (if 0.0 < y then Scalar.clampUnit (x / y) else 0.0) ≤ 1 := by
    split
    · exact Scalar.clampUnit_mem _
    · norm_num
  exact hP _ _ _ hs hs' (hshare _ _).1 (hshare _ _).2

omit [Reading] hP in
/-- The segments that are left are among the segments. -/
theorem mem_of_mem_advance {α : Type} [Scalar α] {target walked : α}
    {segments : List (Vec3 α × Vec3 α)} :
    ∀ s ∈ (advance target walked segments).1, s ∈ segments := by
  induction segments generalizing walked with
  | nil => exact fun _ hs => hs
  | cons s segments ih =>
    cases segments with
    | nil => exact fun _ hs => hs
    | cons s' rest =>
      rw [advance]
      split
      · exact fun x hx => List.mem_cons_of_mem _ (ih x hx)
      · exact fun _ hs => hs

/-- The points along a row of segments lie between the ends of the segments. -/
theorem forall_mem_sample {segments : List (Vec3 ℝ × Vec3 ℝ)}
    (h : ∀ s ∈ segments, P s.1 ∧ P s.2) (walked : ℝ) (targets : List ℝ) :
    ∀ p ∈ sample segments walked targets, P p := by
  induction targets generalizing segments walked with
  | nil => exact fun _ hp => absurd hp List.not_mem_nil
  | cons target targets ih =>
    have hleft : ∀ s ∈ (advance target walked segments).1, P s.1 ∧ P s.2 :=
      fun s hs => h s (mem_of_mem_advance s hs)
    rw [sample]
    split
    · next s rest walked' heq =>
      rw [heq] at hleft
      obtain ⟨hstart, hend⟩ := hleft s List.mem_cons_self
      exact List.forall_mem_cons.2 ⟨pointAt_mem hP hstart hend _, ih hleft _⟩
    · exact fun _ hp => absurd hp List.not_mem_nil

/-- A resampled line lies between the points of the line. -/
theorem forall_mem_resample {points : List (Vec3 ℝ)} (h : ∀ p ∈ points, P p) (closed : Bool)
    (count : Nat) : ∀ p ∈ resample points closed count, P p := by
  rw [resample]
  split
  · exact h
  · dsimp only
    split
    · cases points with
      | nil => exact fun _ hp => absurd hp List.not_mem_nil
      | cons q qs =>
        intro p hp
        rw [List.eq_of_mem_replicate hp]
        exact h q List.mem_cons_self
    · refine forall_mem_sample hP (fun s hs => ?_) _ _
      obtain ⟨hstart, hend⟩ := mem_of_mem_steps hs
      exact ⟨h _ hstart, h _ hend⟩

end Sweep

/-! ## Cut ways -/

namespace Plane

variable (plane : Plane ℝ) {v w : Vec3 ℝ}

omit hP in
/-- A point that counts as in front of a plane lies in front of it. -/
theorem distance_pos_of_side (h : plane.side v = .front) : 0 < plane.distance v := by
  rw [side] at h
  split at h
  · cases h
  · split at h
    · next hfront => exact planeTolerance_pos.trans hfront
    · cases h

omit hP in
/-- A point that counts as behind a plane lies behind it. -/
theorem distance_neg_of_side (h : plane.side v = .back) : plane.distance v < 0 := by
  rw [side] at h
  split at h
  · next hback => exact hback.trans (neg_neg_of_pos planeTolerance_pos)
  · split at h <;> cases h

omit hP in
/-- A plane cuts a way at the share of the distances from it. -/
theorem crossing_eq (v w : Vec3 ℝ) : plane.crossing v w =
    v.lerp w (-plane.distance v / (plane.distance w - plane.distance v)) := by
  have hshare : (plane.offset - plane.normal.dot v) / plane.normal.dot (w - v) =
      -plane.distance v / (plane.distance w - plane.distance v) := by
    simp only [distance, Vec3.dot_eq, Vec3.sub_eq]
    congr 1 <;> ring
  rw [crossing, hshare]

/-- A plane cuts the way between two points on different sides of it between them. -/
theorem crossing_mem (hv : P v) (hw : P w) (h : plane.distance v * plane.distance w < 0) :
    P (plane.crossing v w) := by
  rw [crossing_eq]
  generalize plane.distance v = x at h
  generalize plane.distance w = y at h
  rcases mul_neg_iff.1 h with ⟨hx, hy⟩ | ⟨hx, hy⟩
  · have hneg : y - x < 0 := by linarith
    exact hP _ _ _ hv hw (div_nonneg_of_nonpos (by linarith) hneg.le)
      ((div_le_one_of_neg hneg).2 (by linarith))
  · have hpos : 0 < y - x := by linarith
    exact hP _ _ _ hv hw (div_nonneg (by linarith) hpos.le) ((div_le_one hpos).2 (by linarith))

end Plane

end Solids
