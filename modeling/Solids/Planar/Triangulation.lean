import Solids.Planar.Outline

/-!
# Triangulation

An outline is cut into triangles over its own corners by clipping ears: a corner that turns to
the left and whose triangle holds no other corner is cut off, and a corner that hardly turns at
all is dropped without a triangle. A clockwise outline is walked backward, so that all triangles
are counter-clockwise. An outline that crosses itself may run out of ears; what is left of it is
then covered by a fan.

Each round removes one corner of the ring, which is why the clipping ends
(`mem_of_findEar?_eq_some`).
-/

namespace Solids.Outline

variable {α : Type} [Scalar α] (outline : Outline α)

/-- The points of a triangle of corners. -/
def points (t : Triangle outline.Corner) : Triangle (Vec2 α) := t.map outline.point

/-- No corner of the ring lies in the triangle, those that coincide with one of its own corners
    aside. -/
def isEar (ring : List outline.Corner) (t : Triangle outline.Corner) : Bool :=
  ring.all fun m =>
    (outline.points t).toList.contains (outline.point m)
      || !(outline.points t).encloses (outline.point m)

/-- What cutting off the middle corner of a triangle yields: no triangle where the way does not
    turn, this one at an ear, and nothing where the corner has to stay. -/
def ear? (ring : List outline.Corner) (t : Triangle outline.Corner) :
    Option (List (Triangle outline.Corner) × outline.Corner) :=
  let turn := (outline.points t).turn
  if approxZero turn then some ([], t.b)
  else if 0.0 < turn ∧ isEar outline ring t then some ([t], t.b)
  else none

/-- The first corner of a ring that can be cut off, and its triangle if it has one. -/
def findEar? (ring : List outline.Corner) :
    Option (List (Triangle outline.Corner) × outline.Corner) :=
  (turns ring).findSome? (ear? outline ring)

/-- What is cut off a triangle of corners is its middle one. -/
theorem snd_eq_of_ear?_eq_some {ring : List outline.Corner} {t : Triangle outline.Corner}
    {r : List (Triangle outline.Corner) × outline.Corner}
    (h : ear? outline ring t = some r) : r.2 = t.b := by
  simp only [ear?] at h
  split at h
  · cases h; rfl
  · split at h
    · cases h; rfl
    · cases h

/-- What is cut off a ring is one of its corners. -/
theorem mem_of_findEar?_eq_some {ring : List outline.Corner}
    {r : List (Triangle outline.Corner) × outline.Corner}
    (h : findEar? outline ring = some r) : r.2 ∈ ring := by
  obtain ⟨t, ht, hr⟩ := List.exists_of_findSome?_eq_some h
  rw [snd_eq_of_ear?_eq_some outline hr]
  exact (mem_of_mem_turns ht).2.1

/-- Cuts off corners until a triangle is left, or until there is no ear. -/
def clip (ring : List outline.Corner) : List (Triangle outline.Corner) :=
  if ring.length ≤ 3 then
    (fan ring).filter fun t => tolerance ≤ Scalar.abs (outline.points t).turn
  else
    match _h : findEar? outline ring with
    | some (triangle, j) => triangle ++ clip (ring.erase j)
    | none => fan ring
termination_by ring.length
decreasing_by
  -- The ring loses the corner that was found in it.
  have hj := mem_of_findEar?_eq_some outline _h
  have := List.length_pos_of_mem hj
  rw [List.length_erase_of_mem hj]
  omega

/-- The triangles of an outline, counter-clockwise, over its corners. -/
def triangulate : List (Triangle outline.Corner) :=
  if outline.size < 3 then []
  else
    let ring := List.finRange outline.size
    clip outline (if signedArea outline < 0.0 then ring.reverse else ring)

end Solids.Outline
