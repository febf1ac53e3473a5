import Solids.Proofs.Mesh.Reads
import Solids.Proofs.Planar.Clipping

/-!
# Sweeps without a border

A sweep of closed profiles whose rings are joined all around or capped has no border: in its mesh
every directed edge occurs as often as its reverse (`Path.watertight_of_swept`). That is so for
every profile and every rail, as long as no face is left out for lack of area, no cap drops a
corner, and the outline of each cap has an area other than zero.

* What a sweep stitches is a row of rings (`Sweep.Row`); each of the sweeps has its own.
* The bands between rings carry what flows around the first ring and not what flows around the last,
  and the caps carry that the other way (`Sweep.around_cap`).

A cap is turned by the sign of its outline's area, which also decides in which order the outline is
walked. The two agree for a positive and for a negative area. For an area of zero they do not, and
the cap faces the wrong way (`Path.not_watertight_bowTie`).
-/

namespace Solids

variable {α G : Type} [Scalar α] [AddCommGroup G]

namespace Sweep

/-! ## Rows of rings -/

/-- What a sweep stitches: rings, whether the last point of each is joined to its first, and how the
    ends are finished. -/
structure Row (α : Type) where
  rings : List (List (Vec3 α))
  closed : Bool
  ends : Ends α

/-- The outlines of the rings that get a cap. -/
def Row.outlines (row : Row α) : List (Outline α) :=
  match row.ends, row.rings.head?, row.rings.getLast? with
  | .capped start finish, some first, some last =>
    [.ofPoints first.toArray start, .ofPoints last.toArray finish]
  | _, _, _ => []

/-- The row has closed rings, which are joined all around or capped. -/
structure Row.Sealed (row : Row α) : Prop where
  closed : row.closed = true
  ends : row.ends ≠ .bare

/-- All faces over the row have an area, and its caps drop no corner. -/
structure Row.Whole (row : Row α) : Prop where
  hasArea : ∀ f ∈ faces (number 0 row.rings) row.closed row.ends, (positions f).hasArea = true
  length_triangulate : ∀ o ∈ row.outlines, o.triangulate.length = o.size - 2

/-- The outlines of the caps have positive or negative areas, as far as they have three corners. -/
def Row.Sided (row : Row α) : Prop :=
  ∀ o ∈ row.outlines, 3 ≤ o.size → (0.0 < o.signedArea ↔ ¬o.signedArea < 0.0)

instance (ends : Ends α) : Decidable (ends ≠ .bare) :=
  match ends with
  | .bare => isFalse fun h => h rfl
  | .joined => isTrue nofun
  | .capped _ _ => isTrue nofun

instance (row : Row α) : Decidable row.Sealed :=
  decidable_of_iff (row.closed = true ∧ row.ends ≠ .bare)
    ⟨fun h => ⟨h.1, h.2⟩, fun h => ⟨h.closed, h.ends⟩⟩

instance (row : Row α) : Decidable row.Whole :=
  decidable_of_iff
    ((∀ f ∈ faces (number 0 row.rings) row.closed row.ends, (positions f).hasArea = true) ∧
      ∀ o ∈ row.outlines, o.triangulate.length = o.size - 2)
    ⟨fun h => ⟨h.1, h.2⟩, fun h => ⟨h.hasArea, h.length_triangulate⟩⟩

instance (row : Row α) : Decidable row.Sided :=
  inferInstanceAs
    (Decidable (∀ o ∈ row.outlines, 3 ≤ o.size → (0.0 < o.signedArea ↔ ¬o.signedArea < 0.0)))

end Sweep

namespace Path

open Sweep (Row)

/-- The row of a profile swept straight. -/
def extrudeRow (profile : Path α) (points : List (Vec3 α)) (closed : Bool) : Row α where
  rings := [points.map (· - profile.faceNormal * (0.5 : α)),
    points.map (· + profile.faceNormal * (0.5 : α))]
  closed := closed
  ends := if closed then .capped profile.faceNormal profile.faceNormal else .bare

/-- The row of a profile swept along a rail. -/
def extrudeAlongRow (profile : Path α) (points : List (Vec3 α)) (closed : Bool)
    (track : List (Vec3 α)) (railClosed : Bool) (twist : α) (align : Alignment) : Row α :=
  let normal := profile.faceNormal
  let directions := Sweep.tangents track railClosed normal
  let ways := Sweep.travelled 0.0 track
  let length := Sweep.railLength track railClosed ways
  { rings := (track.zip (ways.zip (Sweep.orientations normal directions align))).map
      fun (origin, way, orientation) =>
        let share := if 0.0 < length then way / length else 0.0
        let turn := orientation * Rotation.aroundAxis normal (twist * share)
        points.map fun p => origin + turn.apply p
    closed := closed
    ends :=
      if railClosed then .joined
      else
        match closed, directions.head?, directions.getLast? with
        | true, some start, some finish => .capped start finish
        | _, _, _ => .bare }

/-- The row of a profile revolved in `n` steps. -/
def latheRow (points : List (Vec3 α)) (closed : Bool) (n : Nat) : Row α where
  rings := (List.range n).map fun k => points.map (Rotation.aroundY (turnAngle k n)).apply
  closed := closed
  ends := .joined

/-- The row of a tube through profiles. -/
def loftRow (profiles : List (Path α)) : Row α :=
  let usable := profiles.filterMap ring?
  let closed := usable.all (·.2)
  let width := (usable.map (·.1.length)).foldl max 0
  let rings := usable.map fun (points, _) => Sweep.resample points closed width
  { rings := rings
    closed := closed
    ends := match (steps false rings).head?, (steps false rings).getLast? with
      | some (r₀, r₁), some (r₂, r₃) =>
        if closed then .capped (Sweep.direction r₀ r₁) (Sweep.direction r₂ r₃) else .bare
      | _, _ => .bare }

/-- A mesh that is made by sweeping, with the row that is stitched for it. -/
inductive Swept : Row α → Mesh α → Prop
  | extrude {profile : Path α} {points : List (Vec3 α)} {closed : Bool}
      (hring : profile.ring? = some (points, closed)) :
      Swept (profile.extrudeRow points closed) profile.extrude
  | extrudeAlong {profile rail : Path α} {points track : List (Vec3 α)} {closed railClosed : Bool}
      (hring : profile.ring? = some (points, closed))
      (hrail : rail.ring? = some (track, railClosed))
      (twist : α) (align : Alignment) :
      Swept (profile.extrudeAlongRow points closed track railClosed twist align)
        (profile.extrudeAlong rail twist align)
  | lathe {profile : Path α} {points : List (Vec3 α)} {closed : Bool} {segments : UInt32}
      {m : Mesh α} (hring : profile.ring? = some (points, closed))
      (hlathe : profile.lathe segments = .ok m) :
      Swept (latheRow points closed segments.toNat) m
  | loft (profiles : List (Path α)) : Swept (loftRow profiles) (loft profiles)

namespace Swept

variable {row : Row α} {m : Mesh α}

/-- A sweep stitches its row. -/
theorem eq_stitch (h : Swept row m) : m = Sweep.stitch row.rings row.closed row.ends := by
  cases h with
  | extrude hring =>
    unfold Path.extrude
    rw [hring]
    rfl
  | extrudeAlong hring hrail =>
    unfold Path.extrudeAlong
    rw [hring, hrail]
    rfl
  | lathe hring hlathe =>
    unfold Path.lathe at hlathe
    rw [hring] at hlathe
    dsimp only at hlathe
    split at hlathe
    · cases hlathe
    · cases hlathe
      rfl
  | loft profiles =>
    -- Without a pair of rings there are fewer than two.
    have hnone {rings : List (List (Vec3 α))} {closed : Bool} {ends : Sweep.Ends α}
        (hpairs : steps false rings = []) : .empty = Sweep.stitch rings closed ends := by
      have hlength := length_steps_false rings
      rw [hpairs, List.length_nil] at hlength
      exact (if_pos (.inl (by omega))).symm
    unfold Path.loft loftRow
    dsimp only
    generalize hhead : (steps false _).head? = start
    generalize hlast : (steps false _).getLast? = finish
    rcases start with _ | ⟨r₀, r₁⟩
    · exact hnone (List.head?_eq_none_iff.1 hhead)
    · rcases finish with _ | ⟨r₂, r₃⟩
      · exact hnone (List.getLast?_eq_none_iff.1 hlast)
      · rfl

/-- The rings of a row have one length. -/
theorem exists_length_eq (h : Swept row m) : ∃ width, ∀ ring ∈ row.rings, ring.length = width := by
  cases h with
  | @extrude _ points =>
    refine ⟨points.length, fun ring hring => ?_⟩
    simp only [extrudeRow, List.mem_cons, List.not_mem_nil, or_false] at hring
    rcases hring with rfl | rfl <;> exact List.length_map _
  | @extrudeAlong _ _ points =>
    exact ⟨points.length, List.forall_mem_map.2 fun _ _ => List.length_map _⟩
  | @lathe _ points =>
    exact ⟨points.length, List.forall_mem_map.2 fun _ _ => List.length_map _⟩
  | loft profiles =>
    refine ⟨((profiles.filterMap ring?).map (·.1.length)).foldl max 0,
      List.forall_mem_map.2 fun r hr => ?_⟩
    obtain ⟨path, _, hr⟩ := List.mem_filterMap.1 hr
    exact Sweep.length_resample (two_le_of_ring? hr) _ _

end Swept

end Path

namespace Sweep

/-! ## What rows carry -/

omit [Scalar α] [AddCommGroup G] in
/-- Numbered rings have the points of the rings. -/
theorem map_position_number (start : Nat) (rings : List (List (Vec3 α))) :
    (number start rings).map (·.map (·.position)) = rings := by
  induction rings generalizing start with
  | nil => rfl
  | cons ring rings ih =>
    rw [number, List.map_cons, ih, List.map_map]
    congr 1
    exact List.zipIdx_map_fst start ring

section Flow

variable {f : Vertex α → Vertex α → G} (hf : Alternating f)
include hf

/-- A cap carries what flows around its ring at the end of a row, and takes it away at the start. -/
theorem around_cap {ring : List (Vertex α)} (h : 2 ≤ ring.length) {direction : Vec3 α}
    (hall : (outlineOf ring.toArray direction).triangulate.length = ring.length - 2)
    (hsided : 3 ≤ ring.length → (0.0 < (outlineOf ring.toArray direction).signedArea ↔
      ¬(outlineOf ring.toArray direction).signedArea < 0.0)) (atEnd : Bool) :
    around f (cap ring.toArray direction atEnd) =
      if atEnd then along f true ring else -along f true ring := by
  have hsize : (outlineOf ring.toArray direction).size = ring.length :=
    (size_outlineOf _ _).trans List.size_toArray
  by_cases hlen : ring.length = 2
  · -- Between two points there is no cap, and what flows around them cancels.
    have hnil : cap ring.toArray direction atEnd = [] := by
      rw [← List.length_eq_zero_iff, cap, List.length_map, hall, hlen]
    have hfan : fan ring = [] := by rw [← List.length_eq_zero_iff, length_fan, hlen]
    rw [hnil, ← around_fan hf h, hfan]
    cases atEnd
    · exact neg_zero.symm
    · rfl
  · have hring : (List.finRange _).map (vertexAt ring.toArray direction) = ring :=
      List.ext_getElem (by simp [hsize]) fun i _ _ => by simp [vertexAt]
    have hclip := Outline.around_triangulate (hf.comp (vertexAt ring.toArray direction))
      (hsize ▸ h) (hsize ▸ hall)
    rw [← along_map, hring] at hclip
    have hcap (back : Bool) :
        around f ((outlineOf ring.toArray direction).triangulate.map fun t =>
          (if back then t.flip else t).map (vertexAt ring.toArray direction)) =
        if back then -around (fun x y => f (vertexAt ring.toArray direction x)
          (vertexAt ring.toArray direction y)) (outlineOf ring.toArray direction).triangulate
        else around (fun x y => f (vertexAt ring.toArray direction x)
          (vertexAt ring.toArray direction y)) (outlineOf ring.toArray direction).triangulate := by
      cases back with
      | false => exact around_map _ _
      | true =>
        rw [if_pos rfl, ← around_flip (hf.comp _),
          ← around_map (f := f) (vertexAt ring.toArray direction), List.map_map]
        rfl
    rw [cap]
    simp only [hcap, hclip]
    -- Whether the outline is walked backward is also whether its triangles face backward.
    by_cases harea : (outlineOf ring.toArray direction).signedArea < 0.0
    · have hnot : ¬0.0 < (outlineOf ring.toArray direction).signedArea :=
        fun hpos => (hsided (by omega)).1 hpos harea
      cases atEnd <;> simp [harea, hnot]
    · have hpos := (hsided (by omega)).2 harea
      cases atEnd <;> simp [harea, hpos]

omit [Scalar α] in
/-- What flows around the bands of a row. -/
theorem around_bands {rings : List (List (Vertex α))} {width : Nat}
    (hwidth : ∀ ring ∈ rings, ring.length = width) (wrapped : Bool) :
    around f ((steps wrapped rings).flatMap fun (near, far) => band true near far) =
      along (fun near far => -along f true far - -along f true near) wrapped rings := by
  rw [around_flatMap, along]
  refine congrArg List.sum (List.map_congr_left fun s hs => ?_)
  obtain ⟨hnear, hfar⟩ := mem_of_mem_steps hs
  rw [neg_sub_neg]
  exact around_band hf ((hwidth _ hnear).trans (hwidth _ hfar).symm)

/-- Nothing flows around all faces over a sealed row. -/
theorem around_faces {row : Row α} (hsealed : row.Sealed) (hwhole : row.Whole) (hsided : row.Sided)
    {width : Nat} (hwidth : ∀ ring ∈ row.rings, ring.length = width) (h : 2 ≤ width) :
    around f (faces (number 0 row.rings) row.closed row.ends) = 0 := by
  have hrings := map_position_number 0 row.rings
  have hall := hwhole.length_triangulate
  generalize number 0 row.rings = rings at hrings ⊢
  have hwidth : ∀ ring ∈ rings, ring.length = width := fun ring hring => by
    rw [← hwidth _ (hrings ▸ List.mem_map_of_mem hring), List.length_map]
  rw [hsealed.closed]
  cases hends : row.ends with
  | bare => exact absurd hends hsealed.ends
  | joined =>
    rw [faces, around_append]
    -- Every ring is the far one of a band and the near one of the next.
    have hjoints := along_sub_eq_zero (fun ring => -along f true ring) rings
    rw [around_bands hf hwidth, hjoints]
    exact add_zero _
  | capped start finish =>
    unfold faces
    dsimp only
    rw [around_append, around_bands hf hwidth, caps]
    cases rings with
    | nil => exact add_zero _
    | cons first rings =>
      have hlast := List.getLast?_eq_some_getLast (List.cons_ne_nil first rings)
      have hmem := List.getLast_mem (List.cons_ne_nil first rings)
      rw [along_sub, List.head?_cons, hlast]
      generalize (first :: rings).getLast (List.cons_ne_nil first rings) = last at hlast hmem ⊢
      -- The caps carry what the first ring lacks and what the last has too much.
      have houtlines : row.outlines =
          [outlineOf first.toArray start, outlineOf last.toArray finish] := by
        rw [Row.outlines, ← hrings, hends, List.map_cons, List.head?_cons, ← List.map_cons,
          List.getLast?_map, hlast]
        simp [outlineOf]
      simp only [houtlines, List.mem_cons, List.not_mem_nil, or_false, forall_eq_or_imp, forall_eq,
        size_outlineOf, List.size_toArray] at hall
      simp only [Row.Sided, houtlines, List.mem_cons, List.not_mem_nil, or_false, forall_eq_or_imp,
        forall_eq, size_outlineOf, List.size_toArray] at hsided
      have hfirst := hwidth first List.mem_cons_self
      have hstart := around_cap hf (hfirst ▸ h) hall.1 hsided.1 false
      have hfinish := around_cap hf (hwidth last hmem ▸ h) hall.2 hsided.2 true
      dsimp only
      rw [around_append, hstart, hfinish, if_neg Bool.false_ne_true, if_pos rfl]
      abel

end Flow

/-- The mesh over a sealed row is watertight. -/
theorem watertight_stitch {row : Row α} (hsealed : row.Sealed) (hwhole : row.Whole)
    (hsided : row.Sided) {width : Nat} (hwidth : ∀ ring ∈ row.rings, ring.length = width) :
    (stitch row.rings row.closed row.ends).Watertight := by
  refine Mesh.watertight_of_around fun f hf => ?_
  rw [stitch]
  split
  · rfl
  · next hlen =>
    cases hrings : row.rings with
    | nil => simp [hrings] at hlen
    | cons ring rings =>
      have hring : ring ∈ row.rings := by simp [hrings]
      have hwide : 2 ≤ ring.length := by
        simp only [not_or, List.any_eq_true, decide_eq_true_eq, not_exists, not_and] at hlen
        exact not_lt.1 (hlen.2 ring hring)
      rw [← hrings, List.filter_eq_self.2 hwhole.hasArea]
      have hfaces := around_faces (hf.comp (·.index)) hsealed hwhole hsided hwidth
        (hwidth ring hring ▸ hwide)
      dsimp only
      split
      · rw [Mesh.flip, around_flip hf, around_map, hfaces, neg_zero]
      · rw [around_map, hfaces]

end Sweep

namespace Path

/-! ## Sweeps -/

/-- A sweep of closed profiles that is joined all around or capped has every directed edge as often
    as its reverse, if no face is left out, no cap drops a corner, and the outlines of the caps have
    positive or negative areas. Neither the way the profile runs nor that of the rail matters. -/
theorem watertight_of_swept {row : Sweep.Row α} {m : Mesh α} (h : Swept row m)
    (hsealed : row.Sealed) (hwhole : row.Whole) (hsided : row.Sided) : m.Watertight := by
  obtain ⟨_, hwidth⟩ := h.exists_length_eq
  rw [h.eq_stitch]
  exact Sweep.watertight_stitch hsealed hwhole hsided hwidth

/-- A cube extruded from a square is watertight. -/
theorem watertight_square : ∃ row, Swept row (square : Path Float).extrude ∧ row.Sealed ∧
    row.Whole ∧ row.Sided ∧ (square : Path Float).extrude.Watertight := by
  have hall : ∀ r ∈ (square : Path Float).ring?, (square.extrudeRow r.1 r.2).Sealed ∧
      (square.extrudeRow r.1 r.2).Whole ∧ (square.extrudeRow r.1 r.2).Sided := by decide +kernel
  obtain ⟨r, hring⟩ := Option.isSome_iff_exists.1
    (by decide +kernel : (square : Path Float).ring?.isSome = true)
  obtain ⟨hsealed, hwhole, hsided⟩ := hall r hring
  exact ⟨_, .extrude hring, hsealed, hwhole, hsided,
    watertight_of_swept (.extrude hring) hsealed hwhole hsided⟩

/-- A square whose outline crosses itself, so that it encloses as much to its left as to its
    right. -/
def bowTie : Path Float :=
  .polygon [⟨0.0, 0.0, 0.0⟩, ⟨1.0, 1.0, 0.0⟩, ⟨1.0, 0.0, 0.0⟩, ⟨0.0, 1.0, 0.0⟩]

/-- The caps of the extruded bow tie face into it: they go along its outline as its sides do. -/
theorem not_watertight_bowTie : ∃ row, Swept row bowTie.extrude ∧ row.Sealed ∧ row.Whole ∧
    bowTie.extrude.edges.count (3, 0) = 2 ∧ bowTie.extrude.edges.count (0, 3) = 0 ∧
    ¬bowTie.extrude.Watertight := by
  have hall : ∀ r ∈ bowTie.ring?, (bowTie.extrudeRow r.1 r.2).Sealed ∧
      (bowTie.extrudeRow r.1 r.2).Whole := by decide +kernel
  obtain ⟨r, hring⟩ := Option.isSome_iff_exists.1 (by decide +kernel : bowTie.ring?.isSome = true)
  obtain ⟨hsealed, hwhole⟩ := hall r hring
  have hthere : bowTie.extrude.edges.count (3, 0) = 2 := by decide +kernel
  have hback : bowTie.extrude.edges.count (0, 3) = 0 := by decide +kernel
  refine ⟨_, .extrude hring, hsealed, hwhole, hthere, hback, fun hwatertight => ?_⟩
  have hcount := hwatertight 3 0
  rw [hthere, hback] at hcount
  cases hcount

end Path

end Solids
