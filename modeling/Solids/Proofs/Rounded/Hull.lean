import Solids.Proofs.Exact.Facet
import Solids.Proofs.Hull.Growth
import Solids.Proofs.Record.Values

/-!
# Hulls with rounding

A hull grows in rounds (`Hull.takeUp`): whatever the numbers are, it is closed as long as no round
tears the surface (`closed_convexHull`, where `Hull.Smooth` says what a round must do).

With rounding a round may tear it. The heights of points that are millions apart are rounded by more
than the tolerance, so a face may see a point of its own plane that lies beyond a neighbor which
does not see it. The face over the edge between the two has the inside in front of it and is turned
around, and it no longer meets its neighbors. So the hull of seven points may be no closed surface,
and one of the points far in front of a face (`convexHull_torn`).
-/

namespace Solids

variable {α : Type} [Scalar α]

namespace Hull

variable {cloud : Cloud α} {interior : Vec3 α} {fs : List (Face cloud)}
  {apex : cloud.Place}

/-- The rim of faces, put in order edge by edge. -/
def rimInOrder (fs : List (Face cloud)) : List (cloud.Place × cloud.Place) :=
  let edges := fs.flatMap (·.corners.edges)
  ((edges.filter fun e => !edges.contains e.swap).eraseDups).insertionSort (edgeLe · ·)

omit [Scalar α] in
/-- An edge comes before another if it does by the numbers of its ends. -/
theorem edgeLe_iff {e e' : cloud.Place × cloud.Place} : edgeLe e e' = true ↔
    e.1.val < e'.1.val ∨ e.1.val = e'.1.val ∧ e.2.val ≤ e'.2.val := by
  simp only [edgeLe, Bool.or_eq_true, Bool.and_eq_true, decide_eq_true_eq, beq_iff_eq, Fin.lt_def,
    Fin.le_def, Fin.ext_iff]

/-- Edges are put in order in one way. -/
theorem rim_eq_rimInOrder (fs : List (Face cloud)) : rim fs = rimInOrder fs := by
  have htotal : Std.Total fun e e' : cloud.Place × cloud.Place => edgeLe e e' = true :=
    ⟨fun e e' => by simp only [edgeLe_iff]; omega⟩
  have htrans : IsTrans (cloud.Place × cloud.Place) fun e e' => edgeLe e e' = true :=
    ⟨fun e e' e'' => by simp only [edgeLe_iff]; omega⟩
  have hantisymm : Std.Antisymm fun e e' : cloud.Place × cloud.Place => edgeLe e e' = true :=
    ⟨fun e e' h h' => by
      simp only [edgeLe_iff] at h h'
      exact Prod.ext (Fin.ext (by omega)) (Fin.ext (by omega))⟩
  have hsort := List.mergeSort_eq_insertionSort
    (fun e e' : cloud.Place × cloud.Place => edgeLe e e' = true)
  simp only [Bool.decide_eq_true] at hsort
  exact hsort _

/-- The hull with its next apex taken up. -/
def takeUp (interior : Vec3 α) (fs : List (Face cloud)) : List (Face cloud) :=
  match apex? fs with
  | none => fs
  | some apex =>
    Face.parkAll (rest fs apex ++ (rimInOrder (patch fs apex)).map fun e =>
        Face.make interior ⟨e.1, e.2, apex⟩)
      ((Face.parked (patch fs apex)).filter (· != apex))

/-- The next apex is taken up. -/
theorem takeUp_eq_expand (h : apex? fs = some apex) :
    takeUp interior fs = expand interior fs apex := by
  rw [takeUp, h]
  dsimp only
  rw [← rim_eq_rimInOrder]
  rfl

/-- A round that does not tear a closed hull leaves it closed. -/
theorem closed_takeUp (hclosed : Closed (surface fs))
    (hsmooth : ∀ apex, apex? fs = some apex → Smooth interior fs apex) :
    Closed (surface (takeUp interior fs)) := by
  cases hapex : apex? fs with
  | none =>
    rw [takeUp, hapex]
    exact hclosed
  | some apex =>
    rw [takeUp_eq_expand hapex]
    exact (hsmooth apex hapex).closed_expand hclosed

/-- A closed hull stays closed as long as no round tears it. -/
theorem closed_iterate (hclosed : Closed (surface fs))
    (hsmooth : ∀ n apex, apex? ((takeUp interior)^[n] fs) = some apex →
      Smooth interior ((takeUp interior)^[n] fs) apex) (n : Nat) :
    Closed (surface ((takeUp interior)^[n] fs)) := by
  induction n with
  | zero => exact hclosed
  | succ n ih =>
    rw [Function.iterate_succ_apply']
    exact closed_takeUp ih (hsmooth n)

/-- A hull is grown in as many rounds as points are parked, or less. -/
theorem grow_eq_iterate (interior : Vec3 α) (fs : List (Face cloud)) {n : Nat}
    (h : (Face.parked fs).length ≤ n) : grow interior fs = (takeUp interior)^[n] fs := by
  induction n generalizing fs with
  | zero =>
    cases hapex : apex? fs with
    | none => rw [grow, hapex]; rfl
    | some apex => exact absurd (length_parked_expand_lt interior hapex) (by omega)
  | succ n ih =>
    rw [Function.iterate_succ_apply]
    cases hapex : apex? fs with
    | none =>
      have hstays : takeUp interior fs = fs := by rw [takeUp, hapex]
      rw [hstays]
      refine ih fs ?_
      rw [parked_eq_nil hapex]
      exact Nat.zero_le n
    | some apex =>
      have hlt := length_parked_expand_lt interior hapex
      rw [grow, hapex, takeUp_eq_expand hapex]
      exact ih _ (by omega)

/-- The hull of a cloud, as it grows round by round. -/
def inRounds (cloud : Cloud α) (first : cloud.Place) : Except MeshError (Mesh α) := do
  let seed ← seed cloud first
  return toMesh cloud ((takeUp seed.center)^[(Face.parked seed.faces).length] seed.faces)

end Hull

/-- The rounds make the convex hull. -/
theorem convexHull_eq_inRounds {points : List (Vec3 α)} (h : 3 < (Hull.distinct points).size) :
    convexHull points = Hull.inRounds (Hull.distinct points) ⟨0, Nat.zero_lt_of_lt h⟩ := by
  rw [convexHull, dif_neg (Nat.not_lt.2 h)]
  simp only [Hull.inRounds, Hull.grow_eq_iterate _ _ le_rfl]

/-- The convex hull is closed if the first tetrahedron is and no round tears the surface. -/
theorem closed_convexHull {points : List (Vec3 α)} {m : Mesh α} (h : convexHull points = .ok m)
    (hsize : (Hull.distinct points).size ≤ UInt32.size)
    (hsmooth : ∀ first seed, Hull.seed (Hull.distinct points) first = .ok seed →
      Closed (Hull.surface seed.faces) ∧
        ∀ n apex, Hull.apex? ((Hull.takeUp seed.center)^[n] seed.faces) = some apex →
          Hull.Smooth seed.center ((Hull.takeUp seed.center)^[n] seed.faces) apex) :
    Closed m.triangles := by
  obtain ⟨first, seed, hseed, rfl⟩ := exists_seed_of_convexHull h
  obtain ⟨hclosed, hrounds⟩ := hsmooth first seed hseed
  rw [Hull.grow_eq_iterate _ _ le_rfl]
  exact Hull.closed_toMesh (Hull.closed_iterate hclosed hrounds _) hsize

/-- Seven points on a grid, the first four and the last of them in one plane. -/
def torn : List (Vec3 Float) :=
  [⟨0.0, 0.0, 0.0⟩, ⟨2e6, 3e6, 6e6⟩, ⟨20e6, -5e6, 4e6⟩, ⟨4e6, 6e6, 12e6⟩, ⟨16e6, 10e6, 6e6⟩,
    ⟨16e6, -4e6, 13e6⟩, ⟨22e6, -2e6, 10e6⟩]

/-- Enough of the seven points are distinct to have a hull. -/
theorem size_distinct_torn : 3 < (Hull.distinct torn).size := by decide +kernel

/-- The hull of the torn cloud has an edge that occurs more than once, and a triangle with one of
    the points in front. -/
theorem convexHull_torn : (∀ p ∈ torn, p.Finite) ∧
    ∃ m, convexHull torn = .ok m ∧ ¬Closed m.triangles ∧
      ∃ t ∈ m.triangles, ∃ c, m.corners t = .ok c ∧ ∃ p ∈ torn, tolerance < c.height p := by
  obtain ⟨m, hm, hedges, t, ht, c, hc, hfront⟩ : ∃ m ∈
      (Hull.inRounds (Hull.distinct torn) ⟨0, Nat.zero_lt_of_lt size_distinct_torn⟩).toOption,
      ¬(m.triangles.flatMap Triangle.edges).Nodup ∧ ∃ t ∈ m.triangles,
        ∃ c ∈ (m.corners t).toOption, ∃ p ∈ torn, tolerance < c.height p := by decide +kernel
  have hhull : convexHull torn = .ok m :=
    (convexHull_eq_inRounds size_distinct_torn).trans (eq_ok_of_mem_toOption hm)
  exact ⟨by decide +kernel, m, hhull, fun hclosed => hedges hclosed.nodup, t, ht, c,
    eq_ok_of_mem_toOption hc, hfront⟩

end Solids
