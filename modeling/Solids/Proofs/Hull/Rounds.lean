import Mathlib.Data.List.Perm.Subperm
import Solids.Proofs.Hull.Growth

/-!
# Rounds of a growing hull

A hull grows in rounds, each of which takes up one apex (`Rounds`). A round parks points of the
faces that it removes again, each on one face, and never the apex, so the apex and the points that
are parked after a round were parked before it, every one in its own place
(`cons_parked_expand_subperm`). Along a run the apexes and the points still parked are different
points that were parked at the start (`Rounds.subperm`), and there are no more rounds than points.

* `growth_ends`: what every round finds and leaves, and that the growth comes to an end, whatever
  the numbers are.
-/

namespace Solids.Hull

variable {α : Type} [Scalar α] {cloud : Cloud α} {interior : Vec3 α} {fs gs : List (Face cloud)}
  {apex : cloud.Place} {apexes : List cloud.Place}

/-! ## Parking -/

/-- Parking a point parks no other. -/
theorem parked_park_subperm (i : cloud.Place) (fs : List (Face cloud)) :
    (Face.parked (Face.park i fs)).Subperm (i :: Face.parked fs) := by
  induction fs with
  | nil => exact List.nil_subperm
  | cons f fs ih =>
    rw [Face.park]
    split
    · rw [Face.parked, List.flatMap_cons, List.append_assoc]
      exact List.perm_middle.subperm
    · rw [Face.parked, List.flatMap_cons]
      exact ((List.subperm_append_left _).2 ih).trans List.perm_middle.subperm

/-- Parking points parks each once at most, and no others. -/
theorem parked_parkAll_subperm (fs : List (Face cloud)) (is : List cloud.Place) :
    (Face.parked (Face.parkAll fs is)).Subperm (is ++ Face.parked fs) := by
  induction is generalizing fs with
  | nil => exact .refl _
  | cons i is ih =>
    have hpark := (List.subperm_append_left is).2 (parked_park_subperm i fs)
    exact ((ih _).trans hpark).trans List.perm_middle.subperm

/-- An element of a list and all that are not equal to it are elements, each in its own place. -/
theorem cons_filter_ne_subperm {β : Type} [DecidableEq β] {x : β} {xs : List β} (hx : x ∈ xs) :
    (x :: xs.filter (· != x)).Subperm xs := by
  have hperm := List.perm_cons_erase hx
  have hfilter : (xs.filter (· != x)).Perm ((xs.erase x).filter (· != x)) := by
    simpa using hperm.filter (· != x)
  have hsublist := hfilter.subperm.trans List.filter_sublist.subperm
  exact ((List.subperm_cons x).2 hsublist).trans hperm.symm.subperm

/-- Elements of a list without duplicates, each in its own place, have none. -/
theorem nodup_of_subperm {β : Type} {xs ys : List β} (h : xs.Subperm ys) (hys : ys.Nodup) :
    xs.Nodup := by
  obtain ⟨zs, hperm, hsublist⟩ := h
  exact hperm.nodup_iff.1 (hsublist.nodup hys)

/-- The points parked on the faces that see the apex and on those that do not are all that are. -/
theorem parked_patch_append_rest (fs : List (Face cloud)) (apex : cloud.Place) :
    (Face.parked (patch fs apex) ++ Face.parked (rest fs apex)).Perm (Face.parked fs) := by
  rw [← Face.parked_append]
  exact (List.filter_append_perm _ fs).flatMap_right _

/-- The apex and the points parked when it is taken up were parked before. -/
theorem cons_parked_expand_subperm (interior : Vec3 α) (h : apex? fs = some apex) :
    (apex :: Face.parked (expand interior fs apex)).Subperm (Face.parked fs) := by
  have hagain := parked_parkAll_subperm
    (rest fs apex ++ (rim (patch fs apex)).map fun e => Face.make interior ⟨e.1, e.2, apex⟩)
    ((Face.parked (patch fs apex)).filter (· != apex))
  rw [Face.parked_append, parked_make, List.append_nil] at hagain
  have hpatch := cons_filter_ne_subperm (mem_parked_visible h)
  have hall := ((List.subperm_append_right (Face.parked (rest fs apex))).2 hpatch).trans
    (parked_patch_append_rest fs apex).subperm
  exact ((List.subperm_cons apex).2 hagain).trans hall

/-! ## Rounds -/

/-- The next apex is parked on the first face with parked points, and is the highest of these. -/
theorem exists_of_apex? (h : apex? fs = some apex) : ∃ before f after, fs = before ++ f :: after ∧
    (∀ g ∈ before, g.outside = []) ∧ f.apex? = some apex ∧ apex ∈ f.outside := by
  obtain ⟨before, f, after, hfs, hapex, hbefore⟩ := List.findSome?_eq_some_iff.1 h
  refine ⟨before, f, after, hfs, fun g hg => ?_, hapex, mem_of_lastGreatest?_eq_some hapex⟩
  have hsome : g.apex?.isSome = !g.outside.isEmpty := isSome_lastGreatest?
  rw [hbefore g hg] at hsome
  simpa using hsome

/-- What a round does that takes up an apex. -/
structure Descends (interior : Vec3 α) (fs : List (Face cloud)) (apex : cloud.Place) : Prop where
  /-- The face that the apex was chosen on sees it. -/
  removed : ∃ before f after, fs = before ++ f :: after ∧ (∀ g ∈ before, g.outside = []) ∧
    f.apex? = some apex ∧ apex ∈ f.outside ∧ f ∈ patch fs apex
  /-- The faces that see the apex are gone, and the others are still there. -/
  facets_eq : facets (expand interior fs apex) = facets (rest fs apex) ++
    (rim (patch fs apex)).map fun e => Facet.make interior ⟨e.1, e.2, apex⟩
  /-- No point is parked that was not, and the apex no longer is. -/
  parked_before : ∀ i ∈ Face.parked (expand interior fs apex), i ∈ Face.parked fs ∧ i ≠ apex
  length_lt : (Face.parked (expand interior fs apex)).length < (Face.parked fs).length

/-- A round takes up its apex for good. -/
theorem descends (interior : Vec3 α) (hnodup : (Face.parked fs).Nodup)
    (h : apex? fs = some apex) : Descends interior fs apex where
  removed := by
    obtain ⟨before, f, after, hfs, hbefore, hapex, hmem⟩ := exists_of_apex? h
    refine ⟨before, f, after, hfs, hbefore, hapex, hmem, List.mem_filter.2 ⟨?_, f.seen _ hmem⟩⟩
    rw [hfs]
    exact List.mem_append_right _ List.mem_cons_self
  facets_eq := facets_expand interior fs apex
  parked_before i hi := by
    have hsub := cons_parked_expand_subperm interior h
    refine ⟨hsub.subset (List.mem_cons_of_mem _ hi), ?_⟩
    rintro rfl
    exact (List.nodup_cons.1 (nodup_of_subperm hsub hnodup)).1 hi
  length_lt := length_parked_expand_lt interior h

/-- A run of rounds, with the apexes that it takes up, the last one first. -/
inductive Rounds (interior : Vec3 α) (fs : List (Face cloud)) :
    List cloud.Place → List (Face cloud) → Prop
  | start : Rounds interior fs [] fs
  | round {apexes : List cloud.Place} {gs : List (Face cloud)} {apex : cloud.Place} :
      Rounds interior fs apexes gs → apex? gs = some apex →
        Rounds interior fs (apex :: apexes) (expand interior gs apex)

/-- The apexes of a run and the points that are still parked were parked at its start. -/
theorem Rounds.subperm (h : Rounds interior fs apexes gs) :
    (apexes ++ Face.parked gs).Subperm (Face.parked fs) := by
  induction h with
  | start => exact .refl _
  | @round apexes gs apex _ hapex ih =>
    have hround := (List.subperm_append_left apexes).2 (cons_parked_expand_subperm interior hapex)
    exact List.perm_middle.symm.subperm.trans (hround.trans ih)

/-- The growth of a hull is a run of rounds after which no point is parked. -/
theorem exists_rounds_grow (interior : Vec3 α) (fs : List (Face cloud)) :
    (∃ apexes, Rounds interior fs apexes (grow interior fs)) ∧
      Face.parked (grow interior fs) = [] := by
  refine grow_induction (P := fun gs => ∃ apexes, Rounds interior fs apexes gs) ?_ ⟨[], .start⟩
  rintro gs apex ⟨apexes, hrounds⟩ hapex
  exact ⟨apex :: apexes, hrounds.round hapex⟩

/-- The points parked on the first tetrahedron are points of the cloud, each parked once. -/
theorem Seed.parked_faces_subperm (s : Seed cloud) :
    (Face.parked s.faces).Subperm (List.finRange cloud.size) := by
  let sides : List (Triangle cloud.Place) :=
    [⟨s.a, s.b, s.c⟩, ⟨s.a, s.c, s.d⟩, ⟨s.a, s.d, s.b⟩, ⟨s.b, s.d, s.c⟩]
  have hparked := parked_parkAll_subperm (sides.map (Face.make s.center))
    ((List.finRange cloud.size).filter fun i => !s.corners.contains i)
  exact hparked.trans ((List.append_nil _).symm ▸ List.filter_sublist.subperm)

/-- The growth of a hull ends, whatever the coordinates are. In every round each parked point is
    parked on one face, which sees it; the face that the apex is chosen on is removed; and fewer
    points are parked afterwards, all of which were parked before. So there are no more rounds than
    points. -/
theorem growth_ends {points : List (Vec3 α)} (hsize : 3 < (distinct points).size)
    {s : Seed (distinct points)}
    (hseed : seed (distinct points) ⟨0, Nat.zero_lt_of_lt hsize⟩ = .ok s) :
    (∀ apexes gs, Rounds s.center s.faces apexes gs →
      (Face.parked gs).Nodup ∧ (∀ f ∈ gs, ∀ i ∈ f.outside, tolerance < f.height i) ∧
        apexes.length + (Face.parked gs).length ≤ points.length ∧
        ∀ apex, apex? gs = some apex → Descends s.center gs apex) ∧
      ∃ apexes, Rounds s.center s.faces apexes (grow s.center s.faces) ∧
        apexes.length ≤ points.length ∧ Face.parked (grow s.center s.faces) = [] ∧
          convexHull points = .ok (toMesh _ (grow s.center s.faces)) := by
  have hstart := s.parked_faces_subperm
  have hcount {apexes gs} (h : Rounds s.center s.faces apexes gs) :
      apexes.length + (Face.parked gs).length ≤ points.length := by
    have hlength := (h.subperm.trans hstart).length_le
    rw [List.length_append, List.length_finRange] at hlength
    exact hlength.trans (size_distinct_le points)
  refine ⟨fun apexes gs h => ?_, ?_⟩
  · have hparked := (List.sublist_append_right apexes _).subperm.trans (h.subperm.trans hstart)
    have hnodup := nodup_of_subperm hparked (List.nodup_finRange _)
    exact ⟨hnodup, fun f _ i hi => of_decide_eq_true (f.seen i hi), hcount h,
      fun apex hapex => descends _ hnodup hapex⟩
  · obtain ⟨⟨apexes, hrounds⟩, hnone⟩ := exists_rounds_grow s.center s.faces
    refine ⟨apexes, hrounds, Nat.le_of_add_right_le (hcount hrounds), hnone, ?_⟩
    rw [convexHull, dif_neg (Nat.not_lt.2 hsize), hseed]
    rfl

/-- The corners of a cube, and a point that is nowhere. -/
def hazyCube : List (Vec3 Float) :=
  [⟨0.0, 0.0, 0.0⟩, ⟨1.0, 0.0, 0.0⟩, ⟨0.0, 1.0, 0.0⟩, ⟨0.0, 0.0, 1.0⟩, ⟨1.0, 1.0, 0.0⟩,
    ⟨1.0, 0.0, 1.0⟩, ⟨0.0, 1.0, 1.0⟩, ⟨1.0, 1.0, 1.0⟩, ⟨0.0 / 0.0, 0.5, 0.5⟩]

/-- Enough of the points are distinct to have a hull. -/
theorem size_distinct_hazyCube : 3 < (distinct hazyCube).size := by decide +kernel

/-- A first tetrahedron leaves four corners of the cube outside, and their hull is found. -/
theorem growth_ends_hazyCube : 3 < (distinct hazyCube).size ∧
    ∃ s, seed (distinct hazyCube) ⟨0, Nat.zero_lt_of_lt size_distinct_hazyCube⟩ = .ok s ∧
      (Face.parked s.faces).length = 4 ∧
      ∃ apexes, Rounds s.center s.faces apexes (grow s.center s.faces) ∧ apexes.length ≤ 9 ∧
        Face.parked (grow s.center s.faces) = [] ∧ ∃ m, convexHull hazyCube = .ok m := by
  obtain ⟨s, hfound, hparked⟩ : ∃ s ∈
      (seed (distinct hazyCube) ⟨0, Nat.zero_lt_of_lt size_distinct_hazyCube⟩).toOption,
      (Face.parked s.faces).length = 4 := by decide +kernel
  have hseed := eq_ok_of_mem_toOption hfound
  obtain ⟨-, apexes, hrounds, hlength, hnone, hhull⟩ := growth_ends size_distinct_hazyCube hseed
  exact ⟨size_distinct_hazyCube, s, hseed, hparked, apexes, hrounds, hlength, hnone, _, hhull⟩

end Solids.Hull
