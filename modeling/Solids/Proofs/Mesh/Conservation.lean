import Solids.Proofs.Mesh.Cutting
import Solids.Proofs.Mesh.Polygons

/-!
# Cutting conserves a polygon

A plane leaves a polygon whole, or cuts it into one piece in front and one behind
(`Polygon.cut_conserves`). A piece has all vertices that are not on the other side, in the order of
the ring, and between them every point where the ring passes through the plane, so that the two fit
together (`Polygon.PieceOf`). It has at least three vertices, and so has every polygon in a tree
that was made by cutting such polygons (`Tree.Reached`).

Nothing is asked of the polygon or of the numbers: it may be neither convex nor plane, and distances
may be rounded or not even numbers.
-/

namespace Solids

variable {α : Type} [Scalar α]

namespace Polygon

/-! ## Pieces -/

/-- The points where the ring of a polygon passes through a plane, in their order. -/
def crossings (p : Polygon α) (plane : Plane α) : List (Vec3 α) :=
  (steps true p.vertices).flatMap fun s => (crossing? plane s.1 s.2).toList

/-- The vertices of a polygon that are not on a side of a plane, in their order. -/
def remaining (p : Polygon α) (plane : Plane α) (away : Side) : List (Vec3 α) :=
  p.vertices.filter fun v => plane.side v != away

/-- A polygon has vertices on both sides of a plane. -/
def Spans (p : Polygon α) (plane : Plane α) : Prop :=
  (∃ v ∈ p.vertices, plane.side v = .front) ∧ ∃ v ∈ p.vertices, plane.side v = .back

/-- `q` is the piece of `p` off the side `away` of a plane: it has the vertices that are not on that
    side and the crossings, each in their order and nothing else, where they are on the ring with
    the crossings put in. -/
structure PieceOf (q p : Polygon α) (plane : Plane α) (away : Side) : Prop where
  plane_eq : q.plane = p.plane
  color_eq : q.color = p.color
  three_le_length : 3 ≤ q.vertices.length
  remaining_sublist : (p.remaining plane away).Sublist q.vertices
  crossings_sublist : (p.crossings plane).Sublist q.vertices
  perm : q.vertices.Perm (p.remaining plane away ++ p.crossings plane)
  sublist_crossed : q.vertices.Sublist (p.crossed plane)

variable {p : Polygon α} {plane : Plane α} {away : Side}

/-- What remains of a polygon, taken from the steps around the ring. -/
theorem remaining_eq_flatMap (p : Polygon α) (plane : Plane α) (away : Side) :
    p.remaining plane away =
      (steps true p.vertices).flatMap fun s => if plane.side s.1 == away then [] else [s.1] := by
  rw [remaining, filter_eq_flatMap]
  conv_lhs => rw [← map_fst_steps_true p.vertices]
  rw [List.flatMap_map]
  refine congrArg (List.flatMap · _) (funext fun s => ?_)
  cases h : plane.side s.1 == away <;> simp [bne, h]

/-- What is left of a polygon that reaches to both sides of a plane is a piece of it. -/
theorem pieceOf_half (haway : away ≠ .on) (h : p.Spans plane) :
    PieceOf { p with vertices := p.half plane away } p plane away where
  plane_eq := rfl
  color_eq := rfl
  three_le_length := three_le_length_half haway (touches_iff.2 h.1) (touches_iff.2 h.2)
  remaining_sublist := by
    rw [remaining_eq_flatMap]
    exact .flatMap_right _ fun s _ => List.sublist_append_left _ _
  crossings_sublist := .flatMap_right _ fun s _ => List.sublist_append_right _ _
  perm := by
    rw [remaining_eq_flatMap]
    exact (List.flatMap_append_perm _ _ _).symm
  sublist_crossed := p.half_sublist_crossed plane away

/-- A polygon that does not reach to both sides of a plane stays whole. -/
theorem toList_cut_of_not_spans (h : ¬p.Spans plane) : (cut plane p).toList = [p] := by
  have htouches : ¬(p.touches plane .front = true ∧ p.touches plane .back = true) := by
    rwa [touches_iff, touches_iff]
  rw [cut]
  split
  · split <;> rfl
  · rfl
  · rfl
  · next hfront hback => exact absurd ⟨hfront, hback⟩ htouches

end Polygon

/-! ## Trees -/

/-- The trees that are made by putting polygons of at least three vertices into trees, turning trees
    around and clipping them by each other. -/
inductive Tree.Reached : Tree α → Prop
  | leaf : Reached .leaf
  | insert {t t' : Tree α} {ps : List (Polygon α)} : Reached t →
      (∀ p ∈ ps, 3 ≤ p.vertices.length) → t.insert ps = .ok t' → Reached t'
  | invert {t : Tree α} : Reached t → Reached t.invert
  | clipTo {t other : Tree α} : Reached t → Reached other → Reached (t.clipTo other)

/-- A tree that is reached is over polygons of at least three vertices. -/
theorem Tree.Reached.over {t : Tree α} (h : t.Reached) :
    t.Over fun p => 3 ≤ p.vertices.length := by
  have hkept := (Polygon.kept_three (α := α)).inherited
  induction h with
  | leaf => trivial
  | @insert t t' ps _ hps hinsert ih =>
    have hresult : Outcome (t.insert ps) True _ := hkept.insert (fun _ _ _ => trivial) ih hps
    exact hresult.of_ok hinsert
  | invert _ ih => exact hkept.invert ih
  | clipTo _ _ ih ih' => exact hkept.clipTo ih ih'

/-- A plane leaves a polygon as it is, in one place, unless it has vertices on both sides. Then it
    is cut into one piece in front and one behind, each of at least three vertices. So every polygon
    has three vertices in a tree that was made of such polygons. -/
theorem Polygon.cut_conserves :
    (∀ (plane : Plane α) (p : Polygon α),
      (¬p.Spans plane ∧ (cut plane p).toList = [p]) ∨
      (p.Spans plane ∧ ∃ f b, cut plane p = { front := [f], back := [b] } ∧
        f.PieceOf p plane .back ∧ b.PieceOf p plane .front)) ∧
    ∀ t : Tree α, t.Reached → ∀ p ∈ t.polygons, 3 ≤ p.vertices.length := by
  refine ⟨fun plane p => ?_, fun t ht => ht.over.polygons⟩
  by_cases hspans : p.Spans plane
  · refine .inr ⟨hspans, _, _, cut_eq_of_touches (touches_iff.2 hspans.1)
      (touches_iff.2 hspans.2), ?_, ?_⟩
    · exact pieceOf_half (by decide) hspans
    · exact pieceOf_half (by decide) hspans
  · exact .inl ⟨hspans, toList_cut_of_not_spans hspans⟩

/-- A triangle on the ground. -/
def Polygon.lawn : Polygon Float :=
  ⟨[⟨0.0, 0.0, 0.0⟩, ⟨1.0, 0.0, 0.0⟩, ⟨0.0, 1.0, 0.0⟩], ⟨⟨0.0, 0.0, 1.0⟩, 0.0⟩, none⟩

/-- An upright triangle that is half in the ground. -/
def Polygon.stake : Polygon Float :=
  ⟨[⟨0.0, 0.0, -1.0⟩, ⟨1.0, 0.0, 1.0⟩, ⟨0.0, 0.0, 1.0⟩], ⟨⟨0.0, -1.0, 0.0⟩, 0.0⟩, none⟩

/-- The ground cuts the upright triangle in a piece of four vertices and one of three. -/
theorem Polygon.cut_conserves_stake : ∃ t, Tree.leaf.insert [lawn, stake] = .ok t ∧ t.Reached ∧
    t.polygons.map (·.vertices.length) = [3, 4, 3] ∧ ∀ p ∈ t.polygons, 3 ≤ p.vertices.length := by
  have hlengths : (Tree.leaf.insert [lawn, stake]).map (·.polygons.map (·.vertices.length)) =
      .ok [3, 4, 3] := by decide +kernel
  obtain ⟨t, ht, hlengths⟩ := map_eq_ok_iff.1 hlengths
  have hreached : t.Reached := .insert .leaf (by decide) ht
  exact ⟨t, ht, hreached, hlengths, cut_conserves.2 t hreached⟩

end Solids
