import Mathlib.Analysis.SpecialFunctions.Trigonometric.Basic
import Solids.Build.Construct
import Solids.Proofs.Exact.Path
import Solids.Proofs.Mesh.Polygons
import Solids.Proofs.Mesh.Shapes

/-!
# Meshes in sets of points

Where the vertices of a mesh are (`Mesh.Within`), by how it is made: meshes that are put together
stay where they are, sweeps are where their rings are, hulls are where their points are, and what
goes through a matrix is where the matrix takes it.

Combinations cut polygons, and put new vertices on the edges that are cut. Over exact numbers these
lie between the ends of the edges, so a combination stays in every convex set that holds all its
operands (`Boolean.within_combineAll`).
-/

namespace Solids

variable {α : Type} {P Q : Vec3 α → Prop}

namespace Mesh

/-- All vertices of the mesh are points of the set. -/
def Within (P : Vec3 α → Prop) (m : Mesh α) : Prop := ∀ p ∈ m.vertices, P p

/-- The mesh without vertices is everywhere. -/
theorem within_empty : (empty : Mesh α).Within P := fun p hp => absurd hp (Array.not_mem_empty p)

variable {m n : Mesh α}

/-- Meshes that are put together stay where they are. -/
theorem Within.merge (hm : m.Within P) (hn : n.Within P) :
    Outcome (m.merge n) True (Within P) := by
  refine (outcome_self _).bind (fun _ => trivial) fun moved _ p hp => ?_
  rcases Array.mem_append.1 hp with hp | hp
  · exact hm p hp
  · exact hn p hp

/-- Any number of meshes that are put together stay where they are. -/
theorem within_mergeAll {ms : List (Mesh α)} (h : ∀ m ∈ ms, m.Within P) :
    Outcome (mergeAll ms) True (Within P) :=
  Outcome.foldlM within_empty fun _ hm n hn => hm.merge (h n hn)

/-- A mesh that may be an error is where it is if it is none. -/
theorem within_orEmpty {r : Except MeshError (Mesh α)} (h : ∀ m, r = .ok m → m.Within P) :
    (orEmpty r).Within P := by
  cases r with
  | ok m => exact h m rfl
  | error e => exact within_empty

variable [Scalar α]

/-- A mesh goes where a matrix takes its vertices. -/
theorem Within.transform {matrix : Matrix α} (hm : m.Within fun p => P (matrix.apply p)) :
    (m.transform matrix).Within P := by
  have hmoved : ∀ p ∈ m.vertices.map matrix.apply, P p := by
    intro p hp
    obtain ⟨q, hq, rfl⟩ := Array.mem_map.1 hp
    exact hm q hq
  rw [Mesh.transform]
  split
  · exact hmoved
  · exact hmoved

end Mesh

variable [Scalar α]

/-! ## Sweeps and hulls -/

/-- What is stitched is where its rings are. -/
theorem Sweep.within_stitch {rings : List (List (Vec3 α))} (h : ∀ ring ∈ rings, ∀ p ∈ ring, P p)
    (closed : Bool) (ends : Ends α) : (stitch rings closed ends).Within P := by
  have hrings : ∀ p ∈ rings.flatten.toArray, P p := by
    intro p hp
    obtain ⟨ring, hring, hp⟩ := List.mem_flatten.1 (List.mem_toArray.1 hp)
    exact h ring hring p hp
  unfold stitch
  split
  · exact Mesh.within_empty
  · dsimp only
    split
    · exact hrings
    · exact hrings

namespace Hull

/-- The vertices of a hull are among its points. -/
theorem within_toMesh {cloud : Cloud α} (h : ∀ p ∈ cloud, P p) (fs : List (Face cloud)) :
    (toMesh cloud fs).Within P := by
  intro p hp
  obtain ⟨i, _, rfl⟩ := List.mem_map.1 (List.mem_toArray.1 hp)
  exact h _ (Array.getElem_mem i.isLt)

end Hull

/-- The hull of points is where they are. -/
theorem within_of_convexHull {points : List (Vec3 α)} (hpoints : ∀ p ∈ points, P p) {m : Mesh α}
    (h : convexHull points = .ok m) : m.Within P := by
  obtain ⟨_, seed, -, rfl⟩ := exists_seed_of_convexHull h
  exact Hull.within_toMesh (fun p hp => hpoints p (Hull.mem_of_mem_distinct hp)) _

/-- The hull of points and meshes is where these are. -/
theorem within_of_hullOf {points : List (Vec3 α)} (hpoints : ∀ p ∈ points, P p)
    {meshes : List (Mesh α)} (hmeshes : ∀ m ∈ meshes, m.Within P) {m : Mesh α}
    (h : hullOf points meshes = .ok m) : m.Within P := by
  have hall : ∀ p ∈ points ++ meshes.flatMap fun m => m.vertices.toList, P p := by
    refine List.forall_mem_append.2 ⟨hpoints, List.forall_mem_flatMap.2 fun m hm p hp => ?_⟩
    exact hmeshes m hm p (Array.mem_toList_iff.1 hp)
  unfold hullOf at h
  dsimp only at h
  split at h
  · cases h
    exact Mesh.within_empty
  · exact within_of_convexHull hall h

/-! ## Combinations -/

section Combination

variable [Reading] {P : Vec3 ℝ → Prop} (hP : Vec3.Convex P)
include hP

omit hP in
/-- The ends of a way that passes through a plane are on different sides of it. -/
theorem Polygon.distance_mul_neg_of_crossing? {plane : Plane ℝ} {v w c : Vec3 ℝ}
    (h : crossing? plane v w = some c) : plane.distance v * plane.distance w < 0 := by
  rw [crossing?] at h
  split at h
  · next hfront hback =>
    exact mul_neg_of_pos_of_neg (plane.distance_pos_of_side hfront)
      (plane.distance_neg_of_side hback)
  · next hback hfront =>
    exact mul_neg_of_neg_of_pos (plane.distance_neg_of_side hback)
      (plane.distance_pos_of_side hfront)
  · cases h

/-- The way between two points is cut in a convex set that holds them. -/
theorem Polygon.crossing?_mem {plane : Plane ℝ} {v w c : Vec3 ℝ} (hv : P v) (hw : P w)
    (h : crossing? plane v w = some c) : P c := by
  rw [eq_crossing_of_crossing? h]
  exact plane.crossing_mem hP hv hw (distance_mul_neg_of_crossing? h)

/-- Polygons stay in a convex set when they are cut. -/
theorem Polygon.kept_within : Polygon.Kept fun p : Polygon ℝ => ∀ v ∈ p.vertices, P v where
  cut plane p hp := by
    intro q hq
    rcases of_mem_cut hq with rfl | ⟨away, _, rfl⟩
    · exact hp
    · intro c hc
      rcases of_mem_half hc with hc | ⟨v, hv, w, hw, hc⟩
      · exact hp c hc
      · exact crossing?_mem hP (hp v hv) (hp w hw) hc
  flip p hp := fun v hv => hp v (List.mem_reverse.1 hv)
  paint _ _ hp := hp

/-- A combination of two meshes stays in a convex set. -/
theorem Mesh.within_combine (op : Boolean) {m n : Mesh ℝ} (hm : m.Within P) (hn : n.Within P) :
    Outcome (m.combine op n) True (Within P) := by
  have hpolygons {m : Mesh ℝ} (hm : m.Within P) (ps : List (Polygon ℝ))
      (hps : m.polygons = .ok ps) : ∀ p ∈ ps, ∀ v ∈ p.vertices, P v :=
    fun p hp v hv => hm v ((m.polygons_outcome.of_ok hps p hp).2 v hv)
  refine (combined (Polygon.kept_within hP) (hpolygons hm) (hpolygons hn) op).imp id
    fun r hr => ?_
  induction hr with
  | left => exact hm
  | right => exact hn
  | empty => exact within_empty
  | polygons hps =>
    intro v hv
    obtain ⟨p, hp, hv⟩ := List.mem_flatMap.1 (List.mem_toArray.1 hv)
    exact hps p hp v hv
  | merged _ _ hc iha ihb => exact (iha.merge ihb).of_ok hc

/-- A combination stays in a convex set that holds its operands. -/
theorem Boolean.within_combineAll (op : Boolean) {ms : List (Mesh ℝ)}
    (h : ∀ m ∈ ms, m.Within P) : Outcome (op.combineAll ms) True (Mesh.Within P) := by
  cases ms with
  | nil => exact Mesh.within_empty
  | cons m ms =>
    obtain ⟨hm, hms⟩ := List.forall_mem_cons.1 h
    rw [combineAll]
    split
    · exact Mesh.within_empty
    · split
      · exact Mesh.within_empty
      · exact Outcome.foldlM hm fun m hm n hn =>
          Mesh.within_combine hP op hm (hms n (List.mem_of_mem_filter hn))

end Combination

end Solids
