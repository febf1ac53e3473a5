import Mathlib
import Solids.Boolean.Polygon

/-!
# Cutting leaves two polygons

A polygon that reaches to both sides of a plane is cut in two, and each part has at least three
vertices (`Polygon.three_le_length_half`), so that neither is dropped. Nothing is asked of the
polygon or of the plane: the vertices may be in any order and their distances rounded.

A part gets vertices from every step around the polygon, the start of the step and the point where
it passes from one side to the other (`Side.share`). Of these a way from one side to another needs
a number (`Side.cost`) that a detour does not make smaller, and all the way around leads from the
side of the part to the other one and back.
-/

namespace Solids

/-! ## Walks around a sequence -/

section Walks

variable {β γ : Type}

/-- A closed sequence steps from every element to that in its place in the next rotation. -/
theorem steps_true_eq_zip_rotate (xs : List β) : steps true xs = xs.zip (xs.rotate 1) := by
  cases xs with
  | nil => rfl
  | cons x xs => rw [List.rotate_cons_succ, List.rotate_zero, steps, if_pos rfl]

/-- The steps of a closed sequence do not depend on where it starts, but for their order. -/
theorem steps_true_rotate (xs : List β) (k : Nat) :
    steps true (xs.rotate k) = (steps true xs).rotate k := by
  rw [steps_true_eq_zip_rotate, steps_true_eq_zip_rotate, List.rotate_rotate, Nat.add_comm,
    ← List.rotate_rotate]
  exact (List.zipWith_rotate_distrib Prod.mk xs (xs.rotate 1) k (List.length_rotate _ _).symm).symm

/-- The steps of a closed sequence are those of the way from its first element back to it. -/
theorem steps_true_cons (x : β) (xs : List β) :
    steps true (x :: xs) = steps false (x :: (xs ++ [x])) := by
  have hzip : (x :: xs).zip (xs ++ [x]) = ((x :: xs) ++ [x]).zip (xs ++ [x] ++ []) := by
    rw [List.zip_append (by simp), List.zip_nil_right, List.append_nil]
  rw [steps, steps, if_pos rfl, if_neg Bool.false_ne_true, hzip, List.append_nil, List.cons_append]

/-- The steps of a way are those to an element in between and those from there. -/
theorem steps_false_append (xs : List β) (y : β) (zs : List β) :
    steps false (xs ++ y :: zs) = steps false (xs ++ [y]) ++ steps false (y :: zs) := by
  induction xs with
  | nil => rfl
  | cons x xs ih =>
    cases xs with
    | nil => rfl
    | cons x' xs => exact congrArg ((x, x') :: ·) ih

/-- The last step of a way goes on from where the others end. -/
theorem steps_false_concat {xs : List β} (hxs : xs ≠ []) (y : β) :
    steps false (xs ++ [y]) = steps false xs ++ [(xs.getLast hxs, y)] := by
  have happend := steps_false_append xs.dropLast (xs.getLast hxs) [y]
  rw [List.append_cons, List.dropLast_append_getLast hxs] at happend
  exact happend

/-- A closed sequence goes to its end and back to its start. -/
theorem steps_true_eq_concat (x : β) (xs : List β) : steps true (x :: xs) =
    steps false (x :: xs) ++ [((x :: xs).getLast (List.cons_ne_nil x xs), x)] := by
  rw [steps_true_cons, ← List.cons_append, steps_false_concat]

/-- The steps of an image are the images of the steps. -/
theorem steps_map (f : β → γ) (closed : Bool) (xs : List β) :
    steps closed (xs.map f) = (steps closed xs).map fun s => (f s.1, f s.2) := by
  cases xs with
  | nil => rfl
  | cons x xs =>
    cases closed with
    | false =>
      rw [List.map_cons, steps, steps, if_neg Bool.false_ne_true, if_neg Bool.false_ne_true,
        ← List.map_cons]
      exact List.zip_map
    | true =>
      rw [List.map_cons, steps, steps, if_pos rfl, if_pos rfl, ← List.map_cons,
        ← List.map_singleton, ← List.map_append]
      exact List.zip_map

/-- A closed sequence steps from each of its elements once. -/
theorem map_fst_steps_true (xs : List β) : (steps true xs).map Prod.fst = xs := by
  rw [steps_true_eq_zip_rotate, List.map_fst_zip (List.length_rotate xs 1).ge]

/-- One step around a sequence ends at each of its places. -/
theorem map_snd_steps_true_perm (xs : List β) : ((steps true xs).map Prod.snd).Perm xs := by
  rw [steps_true_eq_zip_rotate, List.map_snd_zip (List.length_rotate xs 1).le]
  exact List.rotate_perm xs 1

/-- The ends of a step come one after the other. -/
theorem sublist_of_mem_steps {xs : List β} {s : β × β} (h : s ∈ steps false xs) :
    [s.1, s.2].Sublist xs := by
  induction xs with
  | nil => cases h
  | cons x xs ih =>
    cases xs with
    | nil => cases h
    | cons y ys =>
      rcases List.mem_cons.1 h with rfl | h
      · exact (List.singleton_sublist.2 List.mem_cons_self).cons_cons x
      · exact (ih h).cons x

/-- The corners of the triangles of a fan come one after the other. -/
theorem sublist_of_mem_fan {xs : List β} {t : Triangle β} (h : t ∈ fan xs) :
    t.toList.Sublist xs := by
  cases xs with
  | nil => cases h
  | cons x xs =>
    obtain ⟨s, hs, rfl⟩ := List.mem_map.1 h
    exact (sublist_of_mem_steps hs).cons_cons x

/-- The elements that are kept of a sequence, each taken by itself. -/
theorem filter_eq_flatMap (keep : β → Bool) (xs : List β) :
    xs.filter keep = xs.flatMap fun x => if keep x then [x] else [] := by
  induction xs with
  | nil => rfl
  | cons x xs ih =>
    rw [List.filter_cons, List.flatMap_cons, ← ih]
    split <;> rfl

/-- A fan has two triangles less than its ring has elements. -/
theorem length_fan (xs : List β) : (fan xs).length = xs.length - 2 := by
  cases xs with
  | nil => rfl
  | cons x xs =>
    rw [fan, List.length_map, length_steps_false, List.length_cons, Nat.add_sub_add_right]

end Walks

/-! ## Sides -/

namespace Side

/-- How many vertices the part off a side gets from a step between two sides. -/
def share (away s t : Side) : Nat :=
  (if s = away then 0 else 1) + if s = .front ∧ t = .back ∨ s = .back ∧ t = .front then 1 else 0

/-- How many vertices the part off a side gets at least on a way between two sides. -/
def cost (away s t : Side) : Nat :=
  if s = t then 0 else share away s t

/-- The least number of vertices that is reached in one step. -/
theorem cost_le_share (away s t : Side) : cost away s t ≤ share away s t := by
  rw [cost]
  split
  · exact Nat.zero_le _
  · exact Nat.le_refl _

/-- A detour over a third side does not cost less. -/
theorem cost_triangle {away : Side} (haway : away ≠ .on) (r s t : Side) :
    cost away r t ≤ cost away r s + cost away s t := by
  cases away with
  | on => exact absurd rfl haway
  | front => cases r <;> cases s <;> cases t <;> decide
  | back => cases r <;> cases s <;> cases t <;> decide

/-- A part gets from a way what getting there costs. -/
theorem cost_le_sum_share {away : Side} (haway : away ≠ .on) (s : Side) (between : List Side)
    (t : Side) : cost away s t ≤
      ((steps false (s :: (between ++ [t]))).map fun r => share away r.1 r.2).sum := by
  induction between generalizing s with
  | nil => exact Nat.le_trans (cost_le_share away s t) (Nat.le_add_right _ _)
  | cons r between ih =>
    calc cost away s t
        ≤ cost away s r + cost away r t := cost_triangle haway s r t
      _ ≤ share away s r + _ := Nat.add_le_add (cost_le_share away s r) (ih r)

/-- A part gets three vertices from a walk around that goes to both sides. -/
theorem three_le_sum_share {away : Side} (haway : away ≠ .on) {sides : List Side}
    (hfront : .front ∈ sides) (hback : .back ∈ sides) :
    3 ≤ ((steps true sides).map fun s => share away s.1 s.2).sum := by
  -- The walk may start in front, and then leads to a place behind and from there to its start.
  obtain ⟨before, after, rfl⟩ := List.append_of_mem hfront
  have hrotate := steps_true_rotate (before ++ front :: after) before.length
  rw [List.rotate_append_length_eq, List.cons_append] at hrotate
  have hsum : ((steps true (before ++ front :: after)).map fun s => share away s.1 s.2).sum =
      ((steps true (front :: (after ++ before))).map fun s => share away s.1 s.2).sum := by
    rw [hrotate]
    exact (((List.rotate_perm _ _).map _).sum_nat).symm
  have hmem : back ∈ after ++ before := by
    simp only [List.mem_append, List.mem_cons, reduceCtorEq, false_or] at hback ⊢
    exact hback.symm
  obtain ⟨there, home, hway⟩ := List.append_of_mem hmem
  rw [hsum, hway, steps_true_cons, List.append_assoc, List.cons_append, ← List.cons_append,
    steps_false_append, List.map_append, List.sum_append]
  have hthere := cost_le_sum_share haway front there back
  have hhome := cost_le_sum_share haway back home front
  have hround : 3 ≤ cost away front back + cost away back front := by
    cases away with
    | on => exact absurd rfl haway
    | front => decide
    | back => decide
  exact hround.trans (Nat.add_le_add hthere hhome)

/-- Two sides other than in front are the same unless one of them is neither. -/
theorem on_or_on_or_eq {s t : Side} (hs : s ≠ .front) (ht : t ≠ .front) :
    s = .on ∨ t = .on ∨ s = t := by
  cases s <;> cases t <;> simp at hs ht ⊢

end Side

/-! ## Parts -/

namespace Polygon

variable {α : Type} [Scalar α] {p : Polygon α} {plane : Plane α} {away s : Side}

/-- A polygon touches a side if one of its vertices is there. -/
theorem touches_iff : p.touches plane s = true ↔ ∃ v ∈ p.vertices, plane.side v = s := by
  simp only [touches, List.any_eq_true, beq_iff_eq]

/-- A polygon lies on a plane unless one of its vertices is off it. -/
theorem liesOn_eq_false_iff :
    p.liesOn plane = false ↔ p.touches plane .front = true ∨ p.touches plane .back = true := by
  simp only [liesOn, Bool.and_eq_false_iff, Bool.not_eq_false']

/-- A polygon lies on a plane if its vertices do. -/
theorem liesOn_of_side (h : ∀ v ∈ p.vertices, plane.side v = .on) : p.liesOn plane = true := by
  by_contra hoff
  rcases liesOn_eq_false_iff.1 (Bool.eq_false_iff.2 hoff) with htouches | htouches
  all_goals
    obtain ⟨v, hv, hside⟩ := touches_iff.1 htouches
    rw [h v hv] at hside
    cases hside

/-- A step passes through a plane at one point or at none. -/
theorem length_crossing? (plane : Plane α) (v w : Vec3 α) : (crossing? plane v w).toList.length =
    if plane.side v = .front ∧ plane.side w = .back ∨ plane.side v = .back ∧ plane.side w = .front
    then 1 else 0 := by
  rw [crossing?]
  split
  · next hv hw => rw [if_pos (.inl ⟨hv, hw⟩), Option.toList_some, List.length_singleton]
  · next hv hw => rw [if_pos (.inr ⟨hv, hw⟩), Option.toList_some, List.length_singleton]
  · next hthere hhome =>
    rw [if_neg (not_or.2 ⟨fun h => hthere h.1 h.2, fun h => hhome h.1 h.2⟩)]
    rfl

/-- A part gets from every step what the sides of its ends say. -/
theorem length_half (p : Polygon α) (plane : Plane α) (away : Side) :
    (p.half plane away).length =
      ((steps true (p.vertices.map plane.side)).map fun s => Side.share away s.1 s.2).sum := by
  rw [half, List.length_flatMap, steps_map, List.map_map]
  congr 1
  refine List.map_congr_left fun s _ => ?_
  rw [List.length_append, length_crossing?]
  refine congrArg (· + _) ?_
  rw [apply_ite List.length]
  simp only [beq_iff_eq]
  rfl

/-- A polygon that reaches to both sides of a plane has parts with three vertices. -/
theorem three_le_length_half (haway : away ≠ .on) (hfront : p.touches plane .front = true)
    (hback : p.touches plane .back = true) : 3 ≤ (p.half plane away).length := by
  rw [length_half]
  refine Side.three_le_sum_share haway (List.mem_map.2 ?_) (List.mem_map.2 ?_)
  · exact touches_iff.1 hfront
  · exact touches_iff.1 hback

/-- A vertex that is not off the part stays. -/
theorem mem_half {v : Vec3 α} (hv : v ∈ p.vertices) (hside : plane.side v ≠ away) :
    v ∈ p.half plane away := by
  rw [← map_fst_steps_true p.vertices] at hv
  obtain ⟨s, hs, rfl⟩ := List.mem_map.1 hv
  refine List.mem_flatMap.2 ⟨s, hs, List.mem_append_left _ ?_⟩
  rw [if_neg (mt beq_iff_eq.1 hside)]
  exact List.mem_singleton_self _

/-- The ring of a polygon, and between its vertices the points where it passes through a plane. -/
def crossed (p : Polygon α) (plane : Plane α) : List (Vec3 α) :=
  (steps true p.vertices).flatMap fun s => s.1 :: (crossing? plane s.1 s.2).toList

/-- The vertices are points of the ring. -/
theorem mem_crossed (plane : Plane α) {v : Vec3 α} (hv : v ∈ p.vertices) : v ∈ p.crossed plane := by
  rw [← map_fst_steps_true p.vertices] at hv
  obtain ⟨s, hs, rfl⟩ := List.mem_map.1 hv
  exact List.mem_flatMap.2 ⟨s, hs, List.mem_cons_self⟩

/-- The part of a polygon off a side is what is left of its ring with the crossings put in. -/
theorem half_sublist_crossed (p : Polygon α) (plane : Plane α) (away : Side) :
    (p.half plane away).Sublist (p.crossed plane) := by
  refine .flatMap_right _ fun s _ => ?_
  dsimp only
  split
  · exact List.sublist_cons_self _ _
  · exact .refl _

/-- What is not off the part stays of the ring. -/
theorem mem_half_of_mem_crossed {v : Vec3 α} (hv : v ∈ p.crossed plane)
    (hside : plane.side v ≠ away) : v ∈ p.half plane away := by
  obtain ⟨s, hs, hv⟩ := List.mem_flatMap.1 hv
  refine List.mem_flatMap.2 ⟨s, hs, ?_⟩
  rcases List.mem_cons.1 hv with rfl | hv
  · refine List.mem_append_left _ ?_
    rw [if_neg (mt beq_iff_eq.1 hside)]
    exact List.mem_singleton_self _
  · exact List.mem_append_right _ hv

/-- A polygon that reaches to both sides of a plane is cut into a part in front and one behind. -/
theorem cut_eq_of_touches (hfront : p.touches plane .front = true)
    (hback : p.touches plane .back = true) :
    cut plane p = { front := [{ p with vertices := p.half plane .back }],
                    back := [{ p with vertices := p.half plane .front }] } := by
  rw [cut, hfront, hback]
  dsimp only
  rw [part, part, if_pos (three_le_length_half (by decide) hfront hback),
    if_pos (three_le_length_half (by decide) hfront hback)]

end Polygon

end Solids
