import Solids.Hull.Choice
import Solids.Hull.Face

/-!
# Growing a hull

A hull that is convex but misses points parked on its faces takes up one of them at a time: of the
first face with parked points the highest one becomes an *apex*. The faces that see the apex are
removed, the rim of the hole is joined to the apex, and the points of the removed faces, the apex
aside, are parked again (`expand`).

An expansion parks no point that was not parked before, and the apex itself not again, so each
leaves fewer parked points (`length_parked_expand_lt`), and the growth ends (`grow`).
-/

namespace Solids.Hull

variable {α : Type} [Scalar α] {cloud : Cloud α}

/-- The highest of the points parked on a face. -/
def Face.apex? (f : Face cloud) : Option cloud.Place :=
  lastGreatest? (fun i j => Scalar.precedes (f.height i) (f.height j)) f.outside

/-- The next apex: the highest point of the first face with parked points. -/
def apex? (fs : List (Face cloud)) : Option cloud.Place :=
  fs.findSome? Face.apex?

/-- Edges by their start, and by their end where they start at one point. -/
def edgeLe (e e' : cloud.Place × cloud.Place) : Bool :=
  e.1 < e'.1 || (e.1 == e'.1 && e.2 ≤ e'.2)

/-- The edges of faces that no other of them has in reverse, in order. -/
def rim (fs : List (Face cloud)) : List (cloud.Place × cloud.Place) :=
  let edges := fs.flatMap (·.corners.edges)
  ((edges.filter fun e => !edges.contains e.swap).eraseDups).mergeSort edgeLe

/-- The hull with one more point, which some of its faces see. -/
def expand (interior : Vec3 α) (fs : List (Face cloud)) (apex : cloud.Place) :
    List (Face cloud) :=
  let visible := fs.filter fun f => f.sees apex
  let kept := fs.filter fun f => !f.sees apex
  let joined := (rim visible).map fun e => Face.make interior ⟨e.1, e.2, apex⟩
  Face.parkAll (kept ++ joined) ((Face.parked visible).filter (· != apex))

/-- The next apex is parked on one of the faces that see it. -/
theorem mem_parked_visible {fs : List (Face cloud)} {apex : cloud.Place}
    (h : apex? fs = some apex) : apex ∈ Face.parked (fs.filter fun f => f.sees apex) := by
  obtain ⟨f, hf, ha⟩ := List.exists_of_findSome?_eq_some h
  have hm := mem_of_lastGreatest?_eq_some ha
  refine List.mem_flatMap.2 ⟨f, List.mem_filter.2 ⟨hf, f.seen _ hm⟩, hm⟩

/-- New faces hold no points. -/
theorem parked_make (interior : Vec3 α) (apex : cloud.Place)
    (es : List (cloud.Place × cloud.Place)) :
    Face.parked (es.map fun e => Face.make interior ⟨e.1, e.2, apex⟩) = [] := by
  induction es with
  | nil => rfl
  | cons e es ih => simpa [Face.parked, Face.make] using ih

/-- Taking up an apex leaves fewer points parked. -/
theorem length_parked_expand_lt (interior : Vec3 α) {fs : List (Face cloud)}
    {apex : cloud.Place} (h : apex? fs = some apex) :
    (Face.parked (expand interior fs apex)).length < (Face.parked fs).length := by
  -- The points of the visible faces are parked again, but for the apex, which was one of them.
  -- The points of the other faces stay where they are, and the new faces bring none.
  have hm := mem_parked_visible h
  have hle := Face.length_parked_parkAll_le
    ((fs.filter fun f => !f.sees apex)
      ++ (rim (fs.filter fun f => f.sees apex)).map fun e => Face.make interior ⟨e.1, e.2, apex⟩)
    ((Face.parked (fs.filter fun f => f.sees apex)).filter (· != apex))
  have hlt : ((Face.parked (fs.filter fun f => f.sees apex)).filter (· != apex)).length
      < (Face.parked (fs.filter fun f => f.sees apex)).length :=
    List.length_filter_lt_length_iff_exists.2 ⟨apex, hm, by simp⟩
  have hsum := Face.length_parked_eq_filter_add (fun f => f.sees apex) fs
  rw [Face.parked_append, parked_make, List.append_nil] at hle
  simp only [expand]
  omega

/-- The hull with all its parked points taken up. -/
def grow (interior : Vec3 α) (fs : List (Face cloud)) : List (Face cloud) :=
  match _h : apex? fs with
  | none => fs
  | some apex => grow interior (expand interior fs apex)
termination_by (Face.parked fs).length
decreasing_by exact length_parked_expand_lt interior _h

end Solids.Hull
