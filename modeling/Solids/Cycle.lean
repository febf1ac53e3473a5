import Solids.Triangle

/-!
# Walks through a sequence

The steps and turns of a sequence, where a closed one goes on from its last element to its first.
Outlines, rings and polygons are walked through these lists, never by index. Two walks make
surfaces: a *fan* covers what a ring goes around (`fan`), and a *band* lies between two rings
(`band`).
-/

namespace Solids

variable {β : Type}

/-- The pairs of neighbors in order; in a closed sequence also the last with the first. -/
def steps (closed : Bool) : List β → List (β × β)
  | [] => []
  | x :: xs => (x :: xs).zip (if closed then xs ++ [x] else xs)

/-- Every element of a closed sequence, between its predecessor and its successor. -/
def turns : List β → List (Triangle β)
  | [] => []
  | x :: xs =>
    let all := x :: xs
    ((all.getLast (List.cons_ne_nil x xs) :: all).zip (all.zip (xs ++ [x]))).map
      fun (p, q, r) => ⟨p, q, r⟩

/-- Every element between its predecessor and its successor, which the ends of an open sequence
    lack. -/
def neighbors (closed : Bool) (xs : List β) : List (Option β × β × Option β) :=
  if closed then (turns xs).map fun t => (some t.a, t.b, some t.c)
  else (none :: xs.map some).zip (xs.zip ((xs.drop 1).map some ++ [none]))

/-- A closed sequence has as many steps as elements. -/
theorem length_steps_true (xs : List β) : (steps true xs).length = xs.length := by
  cases xs <;> simp [steps]

/-- An open sequence has one step less than elements. -/
theorem length_steps_false (xs : List β) : (steps false xs).length = xs.length - 1 := by
  cases xs <;> simp [steps]

/-- Every element is the middle of one turn. -/
theorem length_turns (xs : List β) : (turns xs).length = xs.length := by
  cases xs <;> simp [turns]

/-- Every element is listed once with its neighbors. -/
theorem length_neighbors (closed : Bool) (xs : List β) :
    (neighbors closed xs).length = xs.length := by
  cases closed <;> cases xs <;> simp [neighbors, length_turns]

/-- Steps lead from element to element. -/
theorem mem_of_mem_steps {closed : Bool} {xs : List β} {s : β × β} (h : s ∈ steps closed xs) :
    s.1 ∈ xs ∧ s.2 ∈ xs := by
  cases xs with
  | nil => simp [steps] at h
  | cons x xs =>
    obtain ⟨p, q⟩ := s
    have h := List.of_mem_zip h
    refine ⟨h.1, ?_⟩
    have h2 := h.2
    split at h2 <;> simp at h2 ⊢
    · exact h2.symm
    · exact .inr h2

/-- Turns are made of elements. -/
theorem mem_of_mem_turns {xs : List β} {t : Triangle β} (h : t ∈ turns xs) :
    t.a ∈ xs ∧ t.b ∈ xs ∧ t.c ∈ xs := by
  cases xs with
  | nil => simp [turns] at h
  | cons x xs =>
    obtain ⟨⟨p, q, r⟩, hm, rfl⟩ := List.mem_map.1 h
    have h1 := List.of_mem_zip hm
    have h2 := List.of_mem_zip h1.2
    refine ⟨?_, h2.1, ?_⟩
    · rcases List.mem_cons.1 h1.1 with hp | hp
      · exact hp ▸ List.getLast_mem _
      · exact hp
    · rcases List.mem_append.1 h2.2 with hr | hr
      · exact .tail _ hr
      · simp at hr; simp [hr]

/-! ## Surfaces -/

/-- The triangles from the first element of a ring to the steps among the others. -/
def fan : List β → List (Triangle β)
  | [] => []
  | x :: xs => (steps false xs).map fun (p, q) => ⟨x, p, q⟩

/-- The triangles between two rings of one length, two for each step along them. To someone who
    walks along the first ring with the second overhead, they face to the right. -/
def band (closed : Bool) (near far : List β) : List (Triangle β) :=
  (steps closed (near.zip far)).flatMap fun ((p, p'), (q, q')) => fan [p, q, q', p']

end Solids
