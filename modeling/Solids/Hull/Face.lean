import Solids.Triangle

/-!
# Faces of a growing hull

A face of a hull over a cloud of points, turned away from the inside, with the points *parked* on
it: points in front of the face that are not on the hull yet. Parking a list of points
(`Face.parkAll`) gives each to the first face that sees it; a point that no face sees lies inside
and is dropped.

A face holds only points that it sees (`Face.seen`), and parking parks each point at most once
(`parked_parkAll_le`). This is what ends the growth of a hull.
-/

namespace Solids.Hull

/-- The points a hull is made of. -/
abbrev Cloud (α : Type) : Type := Array (Vec3 α)

/-- A point of a cloud, by its place. -/
abbrev Cloud.Place {α : Type} (cloud : Cloud α) : Type := Fin cloud.size

/-- The point at a place. -/
def Cloud.point {α : Type} (cloud : Cloud α) (i : cloud.Place) : Vec3 α := cloud[i]

variable {α : Type} [Scalar α]

/-- A triangle of the hull with the plane that it lies in. -/
structure Facet (cloud : Cloud α) where
  corners : Triangle cloud.Place
  normal : Vec3 α
  /-- The distance of the plane from the origin along the normal. -/
  offset : α

namespace Facet

variable {cloud : Cloud α}

/-- The facet over three points, turned so that `interior` lies behind it. -/
def make (interior : Vec3 α) (t : Triangle cloud.Place) : Facet cloud :=
  let p := t.map cloud.point
  let normal := ((p.b - p.a).cross (p.c - p.a)).normalizeOrZero
  if 0.0 < normal.dot (interior - p.a) then ⟨t.flip, -normal, (-normal).dot p.a⟩
  else ⟨t, normal, normal.dot p.a⟩

/-- The signed distance of a point in front of the facet. -/
def height (f : Facet cloud) (i : cloud.Place) : α :=
  f.normal.dot (cloud.point i) - f.offset

/-- The point lies in front of the facet, by more than the tolerance. -/
def sees (f : Facet cloud) (i : cloud.Place) : Bool :=
  tolerance < f.height i

end Facet

/-- A facet with the points parked on it. -/
structure Face (cloud : Cloud α) extends Facet cloud where
  outside : List cloud.Place := []
  seen : ∀ i ∈ outside, toFacet.sees i = true := by simp

namespace Face

variable {cloud : Cloud α}

/-- A face without parked points. -/
def make (interior : Vec3 α) (t : Triangle cloud.Place) : Face cloud :=
  { toFacet := .make interior t }

/-- The point parked on the first face that sees it. -/
def park (i : cloud.Place) : List (Face cloud) → List (Face cloud)
  | [] => []
  | f :: fs =>
    if h : f.sees i = true then
      { f with outside := f.outside ++ [i], seen := by have := f.seen; grind } :: fs
    else f :: park i fs

/-- All points parked, in order. -/
def parkAll (fs : List (Face cloud)) (is : List cloud.Place) : List (Face cloud) :=
  is.foldl (fun fs i => park i fs) fs

/-- All points parked on a list of faces, in order. -/
def parked (fs : List (Face cloud)) : List cloud.Place :=
  fs.flatMap (·.outside)

/-- A point is parked once at most. -/
theorem length_parked_park_le (i : cloud.Place) (fs : List (Face cloud)) :
    (parked (park i fs)).length ≤ (parked fs).length + 1 := by
  induction fs with
  | nil => simp [park, parked]
  | cons f fs ih =>
    simp only [park]
    split
    · simp only [parked, List.flatMap_cons, List.length_append, List.length_singleton]; omega
    · simp only [parked, List.flatMap_cons, List.length_append] at ih ⊢; omega

/-- Each of a list of points is parked once at most. -/
theorem length_parked_parkAll_le (fs : List (Face cloud)) (is : List cloud.Place) :
    (parked (parkAll fs is)).length ≤ (parked fs).length + is.length := by
  induction is generalizing fs with
  | nil => simp [parkAll]
  | cons i is ih =>
    have h := ih (park i fs)
    have := length_parked_park_le i fs
    simp only [parkAll, List.foldl_cons, List.length_cons] at h ⊢
    omega

/-- The points parked on two lists of faces are those of the first, then of the second. -/
theorem parked_append (fs gs : List (Face cloud)) : parked (fs ++ gs) = parked fs ++ parked gs :=
  List.flatMap_append

/-- Faces taken apart by a test hold together as many points as before. -/
theorem length_parked_eq_filter_add (p : Face cloud → Bool) (fs : List (Face cloud)) :
    (parked fs).length = (parked (fs.filter p)).length
      + (parked (fs.filter fun f => !p f)).length := by
  induction fs with
  | nil => rfl
  | cons f fs ih =>
    by_cases h : p f <;> simp [parked, h] at ih ⊢ <;> omega

end Face

end Solids.Hull
