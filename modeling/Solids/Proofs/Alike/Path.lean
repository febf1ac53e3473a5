import Solids.Path
import Solids.Proofs.Alike.Vector

/-!
# Alike paths

Alike paths are closed or open alike, and flattened to alike points. The normals of the planes that
they wind in are the same: a normal is a sum that starts from zero, and no negative zero is left in
it (`Path.Alike.faceNormal_eq`).
-/

namespace Solids

open Scalar.SignBlind

variable {α : Type} [Scalar α] [Scalar.SignBlind α]

/-- The joints of alike waypoints are alike. -/
theorem Waypoint.Alike.joint {p p' q q' : Waypoint α} (hp : p.Alike p') (hq : q.Alike q') :
    (p.joint q).Alike (p'.joint q') := by
  rw [Waypoint.joint, Waypoint.joint, hp.2]
  split
  · exact hp.1.lerp hq.1 rfl
  · exact hp.1

namespace Path

/-- Alike parabolas have alike points. -/
theorem quadratic_alike {a a' b b' c c' : Vec3 α} (ha : a.Alike a') (hb : b.Alike b')
    (hc : c.Alike c') (t : α) : (quadratic a b c t).Alike (quadratic a' b' c' t) :=
  ((ha.mul rfl).add (hb.mul rfl)).add (hc.mul rfl)

/-- Alike bends are flattened to alike points. -/
theorem bentRun_alike {p p' q q' r r' : Waypoint α} (hp : p.Alike p') (hq : q.Alike q')
    (hr : r.Alike r') : List.Forall₂ Vec3.Alike (bentRun p q r) (bentRun p' q' r') := by
  have hinner {c c' : Vec3 α} (hc : c.Alike c') : List.Forall₂ Vec3.Alike
      ((List.range (curveSteps - 1)).map fun i =>
        quadratic (p.joint q) q.position c (Scalar.ofNat (i + 1) / Scalar.ofNat curveSteps))
      ((List.range (curveSteps - 1)).map fun i =>
        quadratic (p'.joint q') q'.position c' (Scalar.ofNat (i + 1) / Scalar.ofNat curveSteps)) :=
    rel_map_same _ fun _ => quadratic_alike (hp.joint hq) hq.1 hc _
  have hhalf : (q.position.lerp r.position 0.5).Alike (q'.position.lerp r'.position 0.5) :=
    hq.1.lerp hr.1 rfl
  simp only [bentRun, hr.2]
  split
  · exact List.rel_append (hinner hhalf) (.cons hhalf .nil)
  · exact hinner hr.1

/-- Alike points with alike neighbors are flattened to alike points. -/
theorem run_alike {s t : Option (Waypoint α) × Waypoint α × Option (Waypoint α)}
    (h : Both (Option.Rel Waypoint.Alike) (Both Waypoint.Alike (Option.Rel Waypoint.Alike)) s t) :
    List.Forall₂ Vec3.Alike (run s) (run t) := by
  obtain ⟨before, point, after⟩ := s
  obtain ⟨before', point', after'⟩ := t
  obtain ⟨hbefore, hpoint : point.Alike point', hafter⟩ := h
  have hself : List.Forall₂ Vec3.Alike [point.position] [point'.position] := .cons hpoint.1 .nil
  cases hbefore with
  | none => exact hself
  | some hbefore =>
    cases hafter with
    | none => exact hself
    | some hafter =>
      simp only [run, hpoint.2]
      split
      · exact bentRun_alike hbefore hpoint hafter
      · exact hself

/-- The normals of the planes that alike points wind around are the same. -/
theorem windingNormal_eq {ps qs : List (Vec3 α)} (h : List.Forall₂ Vec3.Alike ps qs) :
    windingNormal ps = windingNormal qs := by
  refine foldl_eq_of_rel (I := Vec3.Absorbs) (fun n s t hn ⟨hp, hq⟩ => ?_) Vec3.absorbs_zero
    (rel_steps true h)
  let share (s : Vec3 α × Vec3 α) : Vec3 α :=
    ⟨(s.1.y - s.2.y) * (s.1.z + s.2.z), (s.1.z - s.2.z) * (s.1.x + s.2.x),
     (s.1.x - s.2.x) * (s.1.y + s.2.y)⟩
  have hshare : (share s).Alike (share t) :=
    ⟨mul_alike (sub_alike hp.2.1 hq.2.1) (add_alike hp.2.2 hq.2.2),
     mul_alike (sub_alike hp.2.2 hq.2.2) (add_alike hp.1 hq.1),
     mul_alike (sub_alike hp.1 hq.1) (add_alike hp.2.1 hq.2.1)⟩
  exact ⟨hn.add_eq hshare, hn.add (share s)⟩

namespace Alike

variable {p q : Path α} (h : p.Alike q)
include h

omit [Scalar.SignBlind α] in
/-- Alike paths have alike points. -/
theorem positions :
    List.Forall₂ Vec3.Alike (p.points.map (·.position)) (q.points.map (·.position)) :=
  List.rel_map (fun _ _ hp => hp.1) h

omit [Scalar.SignBlind α] in
/-- Alike paths both have too few points for a line, or neither has. -/
theorem isEmpty_eq : p.isEmpty = q.isEmpty := by
  rw [isEmpty, isEmpty, List.Forall₂.length_eq h]

/-- Alike paths are both closed or both open. -/
theorem isClosed_eq : p.isClosed = q.isClosed := by
  rw [isClosed, isClosed, List.Forall₂.length_eq h]
  obtain ⟨hp, hq⟩ | ⟨x, x', y, y', hx, hx', hy, hy', hfirst, hlast⟩ := ends_of_rel h
  · rw [hp, hq]
  · rw [hx, hx', hy, hy']
    simp only [hfirst.1.distance_eq hlast.1]

/-- Alike paths are flattened to alike points. -/
theorem flattened : List.Forall₂ Vec3.Alike p.flattened q.flattened := by
  have hcurved : p.points.any (·.curved) = q.points.any (·.curved) :=
    any_eq_of_rel (fun _ _ hp => hp.2) h
  have hrun (closed : Bool) {ps qs : List (Waypoint α)} (h : List.Forall₂ Waypoint.Alike ps qs) :
      List.Forall₂ Vec3.Alike ((neighbors closed ps).flatMap run)
        ((neighbors closed qs).flatMap run) :=
    List.rel_flatMap (rel_neighbors closed h) fun _ _ hs => run_alike hs
  rw [Path.flattened, Path.flattened, List.Forall₂.length_eq h, hcurved, h.isClosed_eq]
  split
  · exact h.positions
  split
  · have hring := hrun true (rel_dropLast h)
    exact List.rel_append hring (rel_toList (rel_head? hring))
  · exact hrun false h

/-- Alike paths have the same normal. -/
theorem faceNormal_eq : p.faceNormal = q.faceNormal := by
  rw [faceNormal, faceNormal, windingNormal_eq h.flattened]

/-- Alike paths are both a line or neither is, both closed or open, and have alike rings. -/
theorem ring? :
    Option.Rel (Both (List.Forall₂ Vec3.Alike) Eq) p.ring? q.ring? := by
  have hpoints : List.Forall₂ Vec3.Alike
      (if p.isClosed then p.flattened.dropLast else p.flattened)
      (if q.isClosed then q.flattened.dropLast else q.flattened) := by
    rw [h.isClosed_eq]
    split
    · exact rel_dropLast h.flattened
    · exact h.flattened
  rw [Path.ring?, Path.ring?, h.isEmpty_eq]
  split
  · exact .none
  dsimp only
  generalize (if p.isClosed then p.flattened.dropLast else p.flattened) = ps at hpoints ⊢
  generalize (if q.isClosed then q.flattened.dropLast else q.flattened) = qs at hpoints ⊢
  rw [hpoints.length_eq]
  split
  · exact .some ⟨hpoints, h.isClosed_eq⟩
  · exact .none

end Alike

end Path

end Solids
