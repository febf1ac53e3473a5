import Solids.Build.Construct
import Solids.Proofs.Alike.Outline
import Solids.Proofs.Alike.Path

/-!
# Alike sweeps

Alike paths swept straight, revolved, lofted or filled make alike meshes.
-/

namespace Solids

open Scalar.SignBlind

variable {α : Type} [Scalar α]

/-- Alike meshes stay such turned around. -/
theorem Mesh.Alike.flip {m n : Mesh α} (h : m.Alike n) : m.flip.Alike n.flip :=
  ⟨h.1, congrArg (List.map Triangle.flip) h.2.1, h.2.2⟩

namespace Sweep

/-- The vertices have one index, and alike positions. -/
def Vertex.Alike (v w : Vertex α) : Prop := v.index = w.index ∧ v.position.Alike w.position

/-- Rings of alike points get the same indices. -/
theorem number_alike {rings rings' : List (List (Vec3 α))} (start : Nat)
    (h : List.Forall₂ (List.Forall₂ Vec3.Alike) rings rings') :
    List.Forall₂ (List.Forall₂ Vertex.Alike) (number start rings) (number start rings') := by
  induction h generalizing start with
  | nil => exact .nil
  | cons hring _ ih =>
    rw [number, number, hring.length_eq]
    refine .cons (List.rel_map ?_ (rel_zipIdx start hring)) (ih _)
    exact fun _ _ ⟨hp, hi⟩ => ⟨congrArg Nat.toUInt32 hi, hp⟩

variable [Scalar.SignBlind α]

/-- Alike rings get alike caps. -/
theorem cap_alike {ring ring' : List (Vertex α)} (h : List.Forall₂ Vertex.Alike ring ring')
    (direction : Vec3 α) (atEnd : Bool) :
    List.Forall₂ (Triangle.Rel Vertex.Alike) (cap ring.toArray direction atEnd)
      (cap ring'.toArray direction atEnd) := by
  have houtline : (outlineOf ring.toArray direction).Alike (outlineOf ring'.toArray direction) := by
    refine Outline.ofPoints_alike ?_ direction
    rw [Array.toList_map, Array.toList_map]
    exact List.rel_map (fun _ _ hv => hv.2) h
  rw [cap, cap, houtline.signedArea_eq]
  refine List.rel_map (fun t u ht => ?_) houtline.triangulate
  have hcorner {t u} (ht : Triangle.Rel Outline.Same t u) :
      Triangle.Rel Vertex.Alike (t.map (vertexAt ring.toArray direction))
        (u.map (vertexAt ring'.toArray direction)) := by
    refine ht.map fun i j hij => ?_
    obtain ⟨i, hi⟩ := i
    obtain ⟨j, hj⟩ := j
    obtain rfl : i = j := hij
    rw [size_outlineOf] at hi hj
    exact List.Forall₂.get h hi hj
  split
  · exact hcorner ht.flip
  · exact hcorner ht

/-- The faces over alike rings are alike. -/
theorem faces_alike {rings rings' : List (List (Vertex α))} (closed : Bool) (ends : Ends α)
    (h : List.Forall₂ (List.Forall₂ Vertex.Alike) rings rings') :
    List.Forall₂ (Triangle.Rel Vertex.Alike) (faces rings closed ends)
      (faces rings' closed ends) := by
  have hjoints (around : Bool) : List.Forall₂ (Triangle.Rel Vertex.Alike)
      ((steps around rings).flatMap fun (near, far) => band closed near far)
      ((steps around rings').flatMap fun (near, far) => band closed near far) :=
    List.rel_flatMap (rel_steps around h) fun _ _ ⟨hnear, hfar⟩ => rel_band closed hnear hfar
  cases ends with
  | bare => exact List.rel_append (hjoints false) .nil
  | joined => exact List.rel_append (hjoints true) .nil
  | capped start finish =>
    refine List.rel_append (hjoints false) ?_
    rw [caps, caps]
    obtain ⟨rfl, rfl⟩ | ⟨x, x', y, y', hx, hx', hy, hy', hfirst, hlast⟩ := ends_of_rel h
    · exact .nil
    · rw [hx, hx', hy, hy']
      exact List.rel_append (cap_alike hfirst start false) (cap_alike hlast finish true)

/-- Alike rings are stitched to alike meshes. -/
theorem stitch_alike {rings rings' : List (List (Vec3 α))} (closed : Bool) (ends : Ends α)
    (h : List.Forall₂ (List.Forall₂ Vec3.Alike) rings rings') :
    (stitch rings closed ends).Alike (stitch rings' closed ends) := by
  have hshort : rings.any (·.length < 2) = rings'.any (·.length < 2) :=
    any_eq_of_rel (fun _ _ hring => by rw [hring.length_eq]) h
  rw [stitch, stitch, h.length_eq, hshort]
  split
  · exact ⟨.nil, rfl, .none⟩
  have hpositions (t u : Triangle (Vertex α)) (ht : Triangle.Rel Vertex.Alike t u) :
      Triangle.Rel Vec3.Alike (positions t) (positions u) :=
    ht.map fun _ _ hv => hv.2
  have hfaces : List.Forall₂ (Triangle.Rel Vertex.Alike)
      ((faces (number 0 rings) closed ends).filter fun f => (positions f).hasArea)
      ((faces (number 0 rings') closed ends).filter fun f => (positions f).hasArea) := by
    refine List.rel_filter (fun t u ht => ?_) (faces_alike closed ends (number_alike 0 h))
    simp only [(hpositions t u ht).hasArea_eq]
  dsimp only
  generalize (faces (number 0 rings) closed ends).filter _ = fs at hfaces
  generalize (faces (number 0 rings') closed ends).filter _ = fs' at hfaces
  have hvolume : Scalar.sum (fs.map fun f => (positions f).sixfoldVolume) =
      Scalar.sum (fs'.map fun f => (positions f).sixfoldVolume) :=
    Scalar.sum_eq (List.rel_map (fun t u ht => (hpositions t u ht).sixfoldVolume) hfaces)
  have hmesh : Mesh.Alike
      { vertices := rings.flatten.toArray, triangles := fs.map (·.map (·.index)) }
      { vertices := rings'.flatten.toArray, triangles := fs'.map (·.map (·.index)) } := by
    refine ⟨List.rel_flatten h, map_eq_of_rel (fun t u ht => ?_) hfaces, .none⟩
    rw [Triangle.map, Triangle.map, ht.1.1, ht.2.1.1, ht.2.2.1]
  rw [hvolume]
  split
  · exact hmesh.flip
  · exact hmesh

end Sweep

/-! ## Sweeps -/

variable [Scalar.SignBlind α]

namespace Path

/-- Alike paths are swept straight to alike meshes. -/
theorem Alike.extrude {p q : Path α} (h : p.Alike q) : p.extrude.Alike q.extrude := by
  have hring := h.ring?
  rw [Path.extrude, Path.extrude, h.faceNormal_eq]
  generalize p.ring? = r at hring
  generalize q.ring? = s at hring
  cases hring with
  | none => exact ⟨.nil, rfl, .none⟩
  | @some a b hab =>
    obtain ⟨ps, closed⟩ := a
    obtain ⟨qs, closed'⟩ := b
    obtain ⟨hps, rfl : closed = closed'⟩ := hab
    refine Sweep.stitch_alike closed _ (.cons ?_ (.cons ?_ .nil))
    · exact List.rel_map (fun _ _ hp => hp.sub (.refl _)) hps
    · exact List.rel_map (fun _ _ hp => hp.add (.refl _)) hps

/-- Alike paths are revolved to alike meshes, or neither in too few segments. -/
theorem Alike.lathe {p q : Path α} (h : p.Alike q) (n : UInt32) :
    (Mesh.orEmpty (p.lathe n)).Alike (Mesh.orEmpty (q.lathe n)) := by
  have hring := h.ring?
  simp only [Path.lathe]
  split
  · exact ⟨.nil, rfl, .none⟩
  generalize p.ring? = r at hring
  generalize q.ring? = s at hring
  cases hring with
  | none => exact ⟨.nil, rfl, .none⟩
  | @some a b hab =>
    obtain ⟨ps, closed⟩ := a
    obtain ⟨qs, closed'⟩ := b
    obtain ⟨hps, rfl : closed = closed'⟩ := hab
    exact Sweep.stitch_alike closed .joined
      (rel_map_same _ fun _ => List.rel_map (R := Vec3.Alike) (P := Vec3.Alike)
        (fun _ _ hp => Rotation.apply_alike _ hp) hps)

/-- Alike paths are filled to alike meshes. -/
theorem Alike.fill {p q : Path α} (h : p.Alike q) : p.fill.Alike q.fill := by
  have hpoints := rel_dropLast h.flattened
  simp only [Path.fill, h.isClosed_eq, hpoints.length_eq]
  split
  · exact ⟨.nil, rfl, .none⟩
  split
  · exact ⟨.nil, rfl, .none⟩
  have houtline : (Outline.ofPoints p.flattened.dropLast.toArray p.faceNormal).Alike
      (Outline.ofPoints q.flattened.dropLast.toArray q.faceNormal) := by
    rw [h.faceNormal_eq]
    exact Outline.ofPoints_alike hpoints _
  refine ⟨hpoints, congrArg (List.flatMap fun t : Triangle UInt32 => [t, t.flip]) ?_, .none⟩
  refine map_eq_of_rel (fun t u ht => ?_) houtline.triangulate
  rw [Triangle.map, Triangle.map, ht.1, ht.2.1, ht.2.2]

end Path

/-! ## Lofts -/

namespace Sweep

/-- Segments with alike ends. -/
abbrev AlikeEnds : Vec3 α × Vec3 α → Vec3 α × Vec3 α → Prop := Both Vec3.Alike Vec3.Alike

/-- Alike ways are advanced along alike. -/
theorem advance_alike (target walked : α) {ss ts : List (Vec3 α × Vec3 α)}
    (h : List.Forall₂ AlikeEnds ss ts) :
    Both (List.Forall₂ AlikeEnds) Eq (advance target walked ss) (advance target walked ts) := by
  induction h generalizing walked with
  | nil => exact ⟨.nil, rfl⟩
  | cons hs h ih =>
    cases h with
    | nil => exact ⟨.cons hs .nil, rfl⟩
    | cons hs' h =>
      rw [advance, advance, hs.1.distance_eq hs.2]
      split
      · exact ih _
      · exact ⟨.cons hs (.cons hs' h), rfl⟩

/-- Alike segments have alike points at a distance from their starts. -/
theorem pointAt_alike {s t : Vec3 α × Vec3 α} (h : AlikeEnds s t) (distance : α) :
    (pointAt s distance).Alike (pointAt t distance) := by
  rw [pointAt, pointAt, h.1.distance_eq h.2]
  exact h.1.lerp h.2 rfl

/-- Alike ways have alike points at the same distances. -/
theorem sample_alike (targets : List α) (walked : α) {ss ts : List (Vec3 α × Vec3 α)}
    (h : List.Forall₂ AlikeEnds ss ts) :
    List.Forall₂ Vec3.Alike (sample ss walked targets) (sample ts walked targets) := by
  induction targets generalizing ss ts walked with
  | nil => exact .nil
  | cons target targets ih =>
    obtain ⟨hrest, hwalked⟩ := advance_alike target walked h
    rw [sample, sample]
    generalize advance target walked ss = a at hrest hwalked
    generalize advance target walked ts = b at hrest hwalked
    obtain ⟨ss, walked⟩ := a
    obtain ⟨ts, walked'⟩ := b
    obtain rfl : walked = walked' := hwalked
    cases hrest with
    | nil => exact .nil
    | cons hs hrest => exact .cons (pointAt_alike hs _) (ih _ (.cons hs hrest))

/-- Alike lines are resampled to alike points. -/
theorem resample_alike {ps qs : List (Vec3 α)} (closed : Bool) (count : Nat)
    (h : List.Forall₂ Vec3.Alike ps qs) :
    List.Forall₂ Vec3.Alike (resample ps closed count) (resample qs closed count) := by
  have hsteps := rel_steps closed h
  have hways (f : Vec3 α × Vec3 α → α) (hf : ∀ s t, Both Vec3.Alike Vec3.Alike s t → f s = f t) :
      (steps closed ps).map f = (steps closed qs).map f := map_eq_of_rel hf hsteps
  simp only [resample, h.length_eq]
  rw [hways]
  · split
    · exact h
    split
    · cases h with
      | nil => exact .nil
      | cons hp _ => exact rel_replicate count hp
    · exact sample_alike _ _ hsteps
  · exact fun _ _ hs => hs.1.distance_eq hs.2

omit [Scalar.SignBlind α] in
/-- The line through alike points is alike. -/
theorem polyline_alike {ps qs : List (Vec3 α)} (h : List.Forall₂ Vec3.Alike ps qs) :
    (Path.polyline ps).Alike (Path.polyline qs) :=
  List.forall₂_map_left_iff.2 (List.forall₂_map_right_iff.2 (h.imp fun _ _ hp => ⟨hp, rfl⟩))

/-- Alike points have the same mean. -/
theorem centroid_eq {ps qs : List (Vec3 α)} (h : List.Forall₂ Vec3.Alike ps qs) :
    centroid ps = centroid qs := by
  rw [centroid, centroid, Vec3.sum_eq h, h.length_eq]

/-- From one of alike rings to the next it is the same direction. -/
theorem direction_eq {ps ps' qs qs' : List (Vec3 α)} (h : List.Forall₂ Vec3.Alike ps ps')
    (h' : List.Forall₂ Vec3.Alike qs qs') : direction ps qs = direction ps' qs' := by
  rw [direction, direction, centroid_eq h, centroid_eq h', (polyline_alike h').faceNormal_eq]

end Sweep

/-- Alike profiles are joined to alike tubes. -/
theorem Path.loft_alike {ps qs : List (Path α)} (h : List.Forall₂ Path.Alike ps qs) :
    (Path.loft ps).Alike (Path.loft qs) := by
  have husable : List.Forall₂ (Both (List.Forall₂ Vec3.Alike) Eq)
      (ps.filterMap Path.ring?) (qs.filterMap Path.ring?) :=
    List.rel_filterMap (fun _ _ hp => hp.ring?) h
  have hclosed : (ps.filterMap Path.ring?).all (·.2) = (qs.filterMap Path.ring?).all (·.2) :=
    all_eq_of_rel (fun _ _ hr => hr.2) husable
  have hlengths : (ps.filterMap Path.ring?).map (·.1.length) =
      (qs.filterMap Path.ring?).map (·.1.length) :=
    map_eq_of_rel (fun _ _ hr => hr.1.length_eq) husable
  simp only [Path.loft, hclosed, hlengths]
  generalize (qs.filterMap Path.ring?).all (·.2) = closed
  generalize ((qs.filterMap Path.ring?).map (·.1.length)).foldl max 0 = width
  generalize hrows : (ps.filterMap Path.ring?).map _ = rings
  generalize hrows' : (qs.filterMap Path.ring?).map _ = rings'
  have hrings : List.Forall₂ (List.Forall₂ Vec3.Alike) rings rings' := by
    rw [← hrows, ← hrows']
    exact List.rel_map (R := Both (List.Forall₂ Vec3.Alike) Eq) (P := List.Forall₂ Vec3.Alike)
      (fun _ _ hr => Sweep.resample_alike closed width hr.1) husable
  obtain ⟨hnone, hnone'⟩ | ⟨x, x', y, y', hx, hx', hy, hy', hfirst, hlast⟩ :=
    ends_of_rel (rel_steps false hrings)
  · rw [hnone, hnone']
    exact ⟨.nil, rfl, .none⟩
  · rw [hx, hx', hy, hy']
    dsimp only
    rw [Sweep.direction_eq hfirst.1 hfirst.2, Sweep.direction_eq hlast.1 hlast.2]
    exact Sweep.stitch_alike closed _ hrings

end Solids
