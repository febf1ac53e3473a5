import Solids.Primitive.Box
import Solids.Proofs.Exact.Division
import Solids.Proofs.Mesh.Shapes
import Solids.Proofs.Record.Values
import Solids.Proofs.Rounded.Number

/-!
# Dividing space with rounding

Rounding takes the corners of a triangle off the plane through them, and if they are far apart, or
nearly on one line, by more than the tolerance. Then no tree can divide the triangle, and the
division does not end (`Mesh.endless_slope`).

This cannot happen to a triangle at right angles to an axis, of whatever size. All it needs of
arithmetic are the laws of zero (`Scalar.ZeroLaws`): the normal of its plane vanishes along the
other axes, so the distance of a point at its height is a difference of equal numbers, and the way
between two such points is cut at the same height (`Polygon.kept_leveled`). So space can be divided
by meshes of such triangles, as boxes are (`Mesh.flat_of_rectilinear`).

What is known of the division with rounding and without is put together in `Mesh.divisions_end`.
-/

namespace Solids

open Scalar (Stays Vanishes ZeroLaws)

/-! ## Axes -/

/-- The axes of space. -/
inductive Axis
  | x
  | y
  | z
  deriving DecidableEq

instance : Fintype Axis := ⟨{.x, .y, .z}, fun i => by cases i <;> decide⟩

variable {α : Type} [Scalar α]

namespace Vec3

/-- The component of a vector along an axis. -/
def along (v : Vec3 α) : Axis → α
  | .x => v.x
  | .y => v.y
  | .z => v.z

/-- The components of a difference. -/
theorem along_sub (v w : Vec3 α) (i : Axis) : (v - w).along i = v.along i - w.along i := by
  cases i <;> rfl

/-- The components of an opposite vector. -/
theorem along_neg (v : Vec3 α) (i : Axis) : (-v).along i = -v.along i := by
  cases i <;> rfl

/-- The components of a quotient. -/
theorem along_div (v : Vec3 α) (s : α) (i : Axis) : (v / s).along i = v.along i / s := by
  cases i <;> rfl

/-- The components of a point on the way between two others. -/
theorem along_lerp (v w : Vec3 α) (s : α) (i : Axis) :
    (v.lerp w s).along i = v.along i + (w.along i - v.along i) * s := by
  cases i <;> rfl

variable [ZeroLaws α] {i : Axis}

open Scalar.ZeroLaws

/-- A product with a vector along an axis only takes the components along it. -/
theorem stays_dot {n : Vec3 α} (hn : ∀ j ≠ i, Vanishes (n.along j)) (v : Vec3 α) :
    Stays (n.dot v) (n.along i * v.along i) := by
  cases i with
  | x =>
    have hy : Vanishes (n.y * v.y) := vanishes_mul _ (hn .y (by decide))
    have hz : Vanishes (n.z * v.z) := vanishes_mul _ (hn .z (by decide))
    exact stays_trans (stays_add _ hz) (stays_add _ hy)
  | y =>
    have hx : Vanishes (n.x * v.x) := vanishes_mul _ (hn .x (by decide))
    have hz : Vanishes (n.z * v.z) := vanishes_mul _ (hn .z (by decide))
    exact stays_trans (stays_add _ hz) (stays_zero_add _ hx)
  | z =>
    have hx : Vanishes (n.x * v.x) := vanishes_mul _ (hn .x (by decide))
    have hy : Vanishes (n.y * v.y) := vanishes_mul _ (hn .y (by decide))
    exact stays_zero_add _ (stays_trans (stays_add _ hy) hx)

/-- The product of two vectors at right angles to an axis is along the axis. -/
theorem vanishes_cross {v w : Vec3 α} (hv : Vanishes (v.along i)) (hw : Vanishes (w.along i)) :
    ∀ j ≠ i, Vanishes ((v.cross w).along j) := by
  have hsub {a b : α} (ha : Vanishes a) (hb : Vanishes b) : Vanishes (a - b) := vanishes_sub ha hb
  intro j hj
  cases i <;> cases j
  case x.x | y.y | z.z => exact absurd rfl hj
  case x.y | y.z | z.x => exact hsub (vanishes_mul_zero _ hw) (vanishes_mul_zero _ hv)
  case x.z | y.x | z.y => exact hsub (vanishes_mul _ hv) (vanishes_mul _ hw)

end Vec3

/-! ## Planes at right angles to an axis -/

namespace Plane

open Scalar.ZeroLaws

variable {plane : Plane α} {i : Axis} {k : α} {v w : Vec3 α}

/-- The plane is at right angles to the axis, at a height. -/
structure Leveled (plane : Plane α) (i : Axis) (k : α) : Prop where
  normal : ∀ j ≠ i, Vanishes (plane.normal.along j)
  offset : Stays plane.offset (plane.normal.along i * k)

variable [ZeroLaws α]

/-- The plane facing the other way is at the same height. -/
theorem Leveled.flip (h : plane.Leveled i k) : plane.flip.Leveled i k where
  normal j hj := by
    rw [Plane.flip, Vec3.along_neg]
    exact vanishes_neg (h.normal j hj)
  offset := by
    rw [Plane.flip, Vec3.along_neg]
    exact stays_trans (stays_neg h.offset) (stays_neg_mul _ _)

/-- A point at the height of a plane lies on it. -/
theorem Leveled.side_eq_on (h : plane.Leveled i k) (hv : Stays (v.along i) k) :
    plane.side v = .on := by
  have hdot := stays_trans (Vec3.stays_dot h.normal v) (stays_mul (plane.normal.along i) hv)
  obtain ⟨hback, hfront⟩ := not_lt (vanishes_sub hdot h.offset)
  rw [side, distance, if_neg hback, if_neg hfront]

/-- The way between two points at a height is cut at the height, by whatever plane. -/
theorem stays_crossing (plane : Plane α) (hv : Stays (v.along i) k) (hw : Stays (w.along i) k) :
    Stays ((plane.crossing v w).along i) k := by
  rw [crossing, Vec3.along_lerp]
  exact stays_trans (stays_add _ (vanishes_mul _ (vanishes_sub hw hv))) hv

/-- The plane through three points at a height is at it. -/
theorem leveled_of_through? {a b c : Vec3 α} (h : through? a b c = some plane)
    (hb : Stays (b.along i) (a.along i)) (hc : Stays (c.along i) (a.along i)) :
    plane.Leveled i (a.along i) := by
  have hv : Vanishes ((b - a).along i) := by
    rw [Vec3.along_sub]
    exact vanishes_sub hb (.refl _)
  have hw : Vanishes ((c - a).along i) := by
    rw [Vec3.along_sub]
    exact vanishes_sub hc (.refl _)
  rw [through?] at h
  dsimp only at h
  split at h
  · cases h
  · cases h
    have hnormal : ∀ j ≠ i, Vanishes
        (((b - a).cross (c - a) / ((b - a).cross (c - a)).length).along j) := by
      intro j hj
      rw [Vec3.along_div]
      exact vanishes_div _ (Vec3.vanishes_cross hv hw j hj)
    exact ⟨hnormal, Vec3.stays_dot hnormal a⟩

end Plane

/-! ## Polygons at right angles to an axis -/

namespace Polygon

/-- What is kept of polygons for every choice is kept for some choice. -/
theorem kept_exists {ι : Sort*} {P : ι → Polygon α → Prop} (h : ∀ i, Kept (P i)) :
    Kept fun p => ∃ i, P i p where
  cut plane p := fun ⟨i, hp⟩ q hq => ⟨i, (h i).cut plane p hp q hq⟩
  flip p := fun ⟨i, hp⟩ => ⟨i, (h i).flip p hp⟩
  paint p color := fun ⟨i, hp⟩ => ⟨i, (h i).paint p color hp⟩

/-- The vertices of the polygon are at the height of its plane, which is at right angles to the
    axis. -/
def Leveled (p : Polygon α) (i : Axis) (k : α) : Prop :=
  ∀ v ∈ p.vertices, p.plane.Leveled i k ∧ Stays (v.along i) k

variable [ZeroLaws α]

/-- Polygons stay at right angles to an axis, at their height. -/
theorem kept_leveled (i : Axis) (k : α) : Kept fun p : Polygon α => p.Leveled i k :=
  kept_of_crossing (P := fun own v => own.Leveled i k ∧ Stays (v.along i) k)
    (fun _ plane _ _ hv hw => ⟨hv.1, plane.stays_crossing hv.2 hw.2⟩)
    fun _ _ hv => ⟨hv.1.flip, hv.2⟩

/-- A polygon at right angles to an axis lies on its plane. -/
theorem Leveled.liesOn {p : Polygon α} {i : Axis} {k : α} (h : p.Leveled i k) :
    p.liesOn p.plane = true :=
  liesOn_of_side fun v hv => (h v hv).1.side_eq_on (h v hv).2

end Polygon

/-! ## Meshes at right angles to the axes -/

namespace Mesh

/-- Every triangle is at right angles to an axis. -/
def Rectilinear (m : Mesh α) : Prop :=
  ∀ t ∈ m.triangles, Outcome (m.corners t) True fun c =>
    ∃ i, (c.b.along i == c.a.along i) = true ∧ (c.c.along i == c.a.along i) = true

instance (m : Mesh α) : Decidable m.Rectilinear :=
  inferInstanceAs (Decidable (∀ t ∈ m.triangles, Outcome (m.corners t) True fun c =>
    ∃ i, (c.b.along i == c.a.along i) = true ∧ (c.c.along i == c.a.along i) = true))

/-- A triangle at right angles to an axis is at the height of its plane. -/
theorem Rectilinear.leveled [ZeroLaws α] {m : Mesh α} (hm : m.Rectilinear) {p : Polygon α}
    (hp : m.Face p) : ∃ i k, p.Leveled i k := by
  obtain ⟨t, ht, c, hc, hvertices, hplane⟩ := hp
  obtain ⟨i, hb, hc'⟩ := (hm t ht).of_ok hc
  replace hb := Scalar.ZeroLaws.stays_of_beq hb
  replace hc' := Scalar.ZeroLaws.stays_of_beq hc'
  refine ⟨i, c.a.along i, fun v hv => ⟨Plane.leveled_of_through? hplane hb hc', ?_⟩⟩
  rw [hvertices] at hv
  change v ∈ [c.a, c.b, c.c] at hv
  simp only [List.mem_cons, List.not_mem_nil, or_false] at hv
  rcases hv with rfl | rfl | rfl
  · exact .refl _
  · exact hb
  · exact hc'

/-- All that becomes of triangles at right angles to the axes lies on its plane. -/
theorem flat_of_rectilinear [ZeroLaws α] {m n : Mesh α} (hm : m.Rectilinear)
    (hn : n.Rectilinear) : m.Flat n := by
  have hkept : Polygon.Kept fun p : Polygon α => ∃ i k, p.Leveled i k :=
    Polygon.kept_exists fun i => Polygon.kept_exists fun k => Polygon.kept_leveled i k
  exact flat_of_inherited hkept.inherited (fun p ⟨_, _, hp⟩ => hp.liesOn)
    (fun _ hp => hm.leveled hp) fun _ hp => hn.leveled hp

/-! ## Where the division ends -/

/-- Where the division of space by two well-formed meshes of binary floating-point numbers ends, so
    that they can be combined:

    * It does if their triangles are at right angles to the axes, and whenever all that becomes of
      them lies on its plane.
    * There is a result just where the recursion ends.
    * It does not end for a polygon that is the first and off its own plane.

    Over exact numbers it always ends. -/
theorem divisions_end {m n : Mesh Float} (hm : m.WellFormed) (hn : n.WellFormed) :
    (m.Rectilinear → n.Rectilinear → m.Divides n) ∧ (m.Flat n → m.Divides n) ∧
    (∀ (t : Tree Float) ps t', t.Grown ps t' ↔ t.insert ps = .ok t') ∧
    (∀ (p : Polygon Float) ps, p.liesOn p.plane = false →
      (∀ t, ¬Tree.Grown .leaf (p :: ps) t) ∧
      ∀ q qs, m.polygons = .ok (p :: ps) → n.polygons = .ok (q :: qs) →
        ∀ op ≠ Boolean.stencil, m.combine op n = .error .endlessDivision) ∧
    ∀ [Reading] {a b : Mesh ℝ}, a.WellFormed → b.WellFormed → a.Divides b := by
  refine ⟨fun hm' hn' => hm.divides hn (flat_of_rectilinear hm' hn'), hm.divides hn,
    fun _ _ _ => Tree.grown_iff, fun p ps hoff => ⟨fun t ht => ?_, ?_⟩, fun ha hb => ?_⟩
  · exact Bool.false_ne_true (hoff.symm.trans ht.liesOn)
  · exact fun q qs hp hq op hop => combine_eq_error hp hq hoff hop
  · exact ha.divides hb (flat_exact _ _)

/-- A cube whose edges are `10 ^ 12` long. -/
def vastCube : Mesh Float :=
  let cube : Mesh Float := Primitive.cube
  { cube with vertices := cube.vertices.map (· * 1e12) }

/-- Space can be divided by a cube and by one around it of another order of magnitude. -/
theorem divides_vastCube : vastCube.Divides Primitive.cube := by
  have hvast : vastCube.WellFormed := Primitive.wellFormed_cube.withVertices Array.size_map
  exact (divisions_end hvast Primitive.wellFormed_cube).1 (by decide +kernel) (by decide +kernel)

/-- A triangle that is cut off the axes far from the origin. -/
def slope : Mesh Float where
  vertices := #[⟨3e11, 0.0, 0.0⟩, ⟨0.0, 0.0, 5e11⟩, ⟨0.0, 4e11, 0.0⟩]
  triangles := [⟨0, 1, 2⟩]

/-- A triangle on the ground. -/
def ground : Mesh Float where
  vertices := #[⟨0.0, 0.0, 0.0⟩, ⟨1.0, 0.0, 0.0⟩, ⟨0.0, 1.0, 0.0⟩]
  triangles := [⟨0, 1, 2⟩]

/-- A mesh that has one polygon, which is on its plane or off it. -/
theorem exists_polygon {m : Mesh α} {on : Bool}
    (h : (m.polygons.map fun ps => ps.map fun p => p.liesOn p.plane) = .ok [on]) :
    ∃ p, m.polygons = .ok [p] ∧ p.liesOn p.plane = on := by
  obtain ⟨ps, hps, hlies⟩ := map_eq_ok_iff.1 h
  obtain ⟨p, rfl, hp⟩ := List.map_eq_singleton_iff.1 hlies
  exact ⟨p, hps, hp⟩

/-- The slope is off its own plane, so it grows to no tree and is combined with nothing. -/
theorem endless_slope : slope.WellFormed ∧ slope.Finite ∧ ground.WellFormed ∧ ground.Finite ∧
    (∃ ps, slope.polygons = .ok ps ∧ ∀ t, ¬Tree.Grown .leaf ps t) ∧
    ∀ op ∈ [Boolean.union, .difference, .intersection],
      slope.combine op ground = .error .endlessDivision := by
  obtain ⟨p, hp, hoff⟩ : ∃ p, slope.polygons = .ok [p] ∧ p.liesOn p.plane = false :=
    exists_polygon (by decide +kernel)
  obtain ⟨q, hq, -⟩ : ∃ q, ground.polygons = .ok [q] ∧ q.liesOn q.plane = true :=
    exists_polygon (by decide +kernel)
  refine ⟨by decide, by decide +kernel, by decide, by decide +kernel, ⟨[p], hp, fun t ht => ?_⟩,
    fun op hop => combine_eq_error hp hq hoff ?_⟩
  · exact Bool.false_ne_true (hoff.symm.trans ht.liesOn)
  · rintro rfl
    revert hop
    decide

end Mesh

end Solids
