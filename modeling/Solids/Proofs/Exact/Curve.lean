import Mathlib.Analysis.SpecialFunctions.Trigonometric.Basic
import Solids.Proofs.Exact.Box
import Solids.Proofs.Exact.Estimate
import Solids.Proofs.Exact.Path
import Solids.Proofs.Mesh.Cutting

/-!
# Curves between their points

A flattened path passes through the sharp points of the path, in their order, and is pulled toward
the curved ones. Over exact numbers it does not leave the box of all of them, and if the path is
closed it ends where it began (`Path.flattened_in_bounds`).

Each point of the path stands for a run of the flattened one (`Path.run`), and a sharp point for
itself, whatever its neighbors are (`Path.sharp_sublist_run`). What is put together of the runs has
therefore the sharp points as a sublist, for numbers of any kind (`Path.sublist_flattened`).
-/

namespace Solids

/-! ## Middles -/

section Middles

variable {β : Type}

/-- Every element of a closed sequence is the middle of its turn. -/
theorem map_middle_turns (xs : List β) : (turns xs).map (·.b) = xs := by
  cases xs with
  | nil => rfl
  | cons x xs =>
    rw [turns, List.map_map]
    change (((x :: xs).getLast _ :: x :: xs).zip ((x :: xs).zip (xs ++ [x]))).map
      (Prod.fst ∘ Prod.snd) = x :: xs
    rw [← List.map_map, List.map_snd_zip (by simp), List.map_fst_zip (by simp)]

/-- Every element is in the middle of its neighbors. -/
theorem map_middle_neighbors (closed : Bool) (xs : List β) :
    (neighbors closed xs).map (fun n => n.2.1) = xs := by
  cases closed with
  | true =>
    rw [neighbors, if_pos rfl, List.map_map]
    exact map_middle_turns xs
  | false =>
    rw [neighbors, if_neg Bool.false_ne_true]
    change List.map (Prod.fst ∘ Prod.snd) _ = xs
    have hafter : xs.length ≤ ((xs.drop 1).map some ++ [none]).length := by
      rw [List.length_append, List.length_map, List.length_drop, List.length_singleton]
      omega
    rw [← List.map_map, List.map_snd_zip (by simp), List.map_fst_zip hafter]

end Middles

/-! ## Sharp points -/

namespace Path

section Sharp

variable {α : Type} [Scalar α]

/-- Where a path passes through its sharp points. The repeated end of a closed path is none of
    them. -/
def sharpPoints (path : Path α) : List (Vec3 α) :=
  ((if path.isClosed then path.points.dropLast else path.points).filter (!·.curved)).map
    (·.position)

/-- A sharp point stands for itself. -/
theorem sharp_sublist_run (n : Option (Waypoint α) × Waypoint α × Option (Waypoint α)) :
    (if n.2.1.curved then [] else [n.2.1.position]).Sublist (run n) := by
  split
  · exact List.nil_sublist _
  · next hsharp =>
    unfold run
    split
    · rw [if_neg hsharp]
    · exact .refl _

/-- Runs pass through the sharp points in their order. -/
theorem sublist_flatMap_run (closed : Bool) (ps : List (Waypoint α)) :
    ((ps.filter (!·.curved)).map (·.position)).Sublist ((neighbors closed ps).flatMap run) := by
  have hsharp : (ps.filter (!·.curved)).map (·.position) =
      (neighbors closed ps).flatMap fun n => if n.2.1.curved then [] else [n.2.1.position] := by
    conv_lhs => rw [← map_middle_neighbors closed ps]
    rw [filter_eq_flatMap, List.flatMap_map, List.map_flatMap]
    refine congrArg (List.flatMap · _) (funext fun n => ?_)
    cases n.2.1.curved <;> rfl
  rw [hsharp]
  exact .flatMap_right _ fun n _ => sharp_sublist_run n

/-- A flattened path passes through the sharp points in their order. -/
theorem sublist_flattened (path : Path α) : path.sharpPoints.Sublist path.flattened := by
  have hstraight {ps : List (Waypoint α)} (hps : ps.Sublist path.points) :
      ((ps.filter (!·.curved)).map (·.position)).Sublist (path.points.map (·.position)) :=
    (List.filter_sublist.trans hps).map _
  rw [sharpPoints, flattened]
  cases hclosed : path.isClosed with
  | true =>
    rw [if_pos rfl]
    split
    · exact hstraight (List.dropLast_sublist _)
    · exact (sublist_flatMap_run true _).trans (List.sublist_append_left _ _)
  | false =>
    rw [if_neg Bool.false_ne_true]
    split
    · exact hstraight (.refl _)
    · exact sublist_flatMap_run false _

/-- Something stands for every point. -/
theorem run_ne_nil (n : Option (Waypoint α) × Waypoint α × Option (Waypoint α)) : run n ≠ [] := by
  have hbent (before point after : Waypoint α) : bentRun before point after ≠ [] := by
    rw [bentRun]
    split <;> simp [curveSteps]
  unfold run
  split
  · split
    · exact hbent _ _ _
    · exact List.cons_ne_nil _ _
  · exact List.cons_ne_nil _ _

end Sharp

variable [Reading]

/-- A closed path that is flattened ends where it began, to within the tolerance. -/
theorem distance_ends_flattened_lt {path : Path ℝ} (hclosed : path.isClosed = true) :
    ∃ first ∈ path.flattened.head?, ∃ last ∈ path.flattened.getLast?,
      first.distance last < tolerance := by
  by_cases hstraight : path.points.length < 3 ∨ !path.points.any (·.curved)
  · rw [flattened, if_pos hstraight]
    unfold isClosed at hclosed
    split at hclosed
    · next first last hfirst hlast =>
      obtain ⟨-, hnear⟩ := Bool.and_eq_true_iff.1 hclosed
      refine ⟨first.position, ?_, last.position, ?_, of_decide_eq_true hnear⟩
      · rw [List.head?_map, hfirst]
        rfl
      · rw [List.getLast?_map, hlast]
        rfl
    · cases hclosed
  · -- The run of the first point begins the ring, and its start is repeated behind the ring.
    have hpoints : 0 < (neighbors true path.points.dropLast).length := by
      rw [length_neighbors, List.length_dropLast]
      omega
    obtain ⟨n, ns, hns⟩ := List.exists_cons_of_length_pos hpoints
    obtain ⟨first, rest, hrun⟩ := List.exists_cons_of_ne_nil (run_ne_nil n)
    have hflat : path.flattened = first :: (rest ++ ns.flatMap run ++ [first]) := by
      rw [flattened, if_neg hstraight, if_pos hclosed, hns, List.flatMap_cons, hrun]
      rfl
    refine ⟨first, ?_, first, ?_, first.distance_self_lt⟩
    · rw [hflat]
      rfl
    · rw [hflat, List.getLast?_cons, List.getLast?_concat]
      rfl

/-- A flattened path stays in the box of all points of the path, passes through the sharp ones in
    their order and, if the path is closed, ends where it began to within the tolerance. -/
theorem flattened_in_bounds (path : Path ℝ) :
    (∀ p ∈ path.flattened, path.bounds.Holds p) ∧
    path.sharpPoints.Sublist path.flattened ∧
    (path.isClosed = true → ∃ first ∈ path.flattened.head?, ∃ last ∈ path.flattened.getLast?,
      first.distance last < tolerance) := by
  have hpoints : ∀ q ∈ path.points, path.bounds.Holds q.position :=
    fun q hq => Bounds.holds_ofPoints (List.mem_map_of_mem hq)
  exact ⟨forall_mem_flattened path.bounds.convex_holds hpoints, path.sublist_flattened,
    distance_ends_flattened_lt⟩

end Path

end Solids

/-! ## A rounded square -/

namespace Solids

attribute [local instance] Session.coarseReading

/-- A closed path with two curved points in a row. -/
noncomputable def arch : Path ℝ :=
  ⟨[⟨⟨0, 0, 0⟩, false⟩, ⟨⟨1, 0, 0⟩, true⟩, ⟨⟨1, 1, 0⟩, true⟩, ⟨⟨0, 1, 0⟩, false⟩,
    ⟨⟨0, 0, 0⟩, false⟩]⟩

/-- The arch is closed. -/
theorem isClosed_arch : arch.isClosed = true :=
  Bool.and_eq_true_iff.2 ⟨rfl, decide_eq_true (Vec3.distance_self_lt _)⟩

/-- The arch passes between its curved points, and through both sharp ones. -/
theorem Path.flattened_in_bounds_arch : arch.isClosed = true ∧
    (⟨1, 1 / 2, 0⟩ ∈ arch.flattened ∧ arch.bounds.Holds ⟨1, 1 / 2, 0⟩) ∧
    [⟨0, 0, 0⟩, ⟨0, 1, 0⟩].Sublist arch.flattened ∧
    ∃ first ∈ arch.flattened.head?, ∃ last ∈ arch.flattened.getLast?,
      first.distance last < tolerance := by
  have hsharp : arch.sharpPoints = [⟨0, 0, 0⟩, ⟨0, 1, 0⟩] := by
    rw [sharpPoints, isClosed_arch]
    rfl
  have hmiddle : (⟨1, 1 / 2, 0⟩ : Vec3 ℝ) ∈ arch.flattened := by
    have hhalf : (⟨1, 1 / 2, 0⟩ : Vec3 ℝ) = Vec3.lerp ⟨1, 0, 0⟩ ⟨1, 1, 0⟩ 0.5 := by
      norm_num [Vec3.lerp_eq]
    have hturn : (some ⟨⟨0, 0, 0⟩, false⟩, ⟨⟨1, 0, 0⟩, true⟩, some ⟨⟨1, 1, 0⟩, true⟩) ∈
        neighbors true arch.points.dropLast := List.mem_of_getElem? (i := 1) rfl
    rw [flattened, if_neg (by decide), if_pos isClosed_arch, hhalf]
    refine List.mem_append_left _ (List.mem_flatMap.2 ⟨_, hturn, ?_⟩)
    exact List.mem_append_right _ (List.mem_singleton_self _)
  obtain ⟨hbounds, hsublist, hends⟩ := flattened_in_bounds arch
  exact ⟨isClosed_arch, ⟨hmiddle, hbounds _ hmiddle⟩, hsharp ▸ hsublist, hends isClosed_arch⟩

end Solids
