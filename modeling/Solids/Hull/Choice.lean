/-!
# Extreme elements

The least and the greatest element of a list by a strict order: of several least ones the first,
of several greatest ones the last.
-/

namespace Solids

variable {β : Type}

/-- The first of the least elements. -/
def firstLeast? (before : β → β → Bool) : List β → Option β
  | [] => none
  | x :: xs => some (xs.foldl (fun best y => if before y best then y else best) x)

/-- The last of the greatest elements. -/
def lastGreatest? (before : β → β → Bool) : List β → Option β
  | [] => none
  | x :: xs => some (xs.foldl (fun best y => if before y best then best else y) x)

/-- The unordered pairs of places in a list, by rising places. -/
def pairs : List β → List (β × β)
  | [] => []
  | x :: xs => xs.map (x, ·) ++ pairs xs

/-- A choice repeated along a list ends at one of its elements. -/
theorem foldl_choice_mem {choose : β → β → β} (hc : ∀ x y, choose x y = x ∨ choose x y = y)
    (x : β) (xs : List β) : xs.foldl choose x ∈ x :: xs := by
  induction xs generalizing x with
  | nil => simp
  | cons y ys ih =>
    rw [List.foldl_cons]
    have := ih (choose x y)
    rcases hc x y with h | h <;> rw [h] at this ⊢ <;> grind

/-- The last of the greatest elements is an element. -/
theorem mem_of_lastGreatest?_eq_some {before : β → β → Bool} {xs : List β} {x : β}
    (h : lastGreatest? before xs = some x) : x ∈ xs := by
  cases xs with
  | nil => simp [lastGreatest?] at h
  | cons y ys =>
    cases h
    exact foldl_choice_mem (fun a b => by by_cases h : before b a <;> simp [h]) y ys

/-- Only the empty list has no greatest element. -/
theorem isSome_lastGreatest? {before : β → β → Bool} {xs : List β} :
    (lastGreatest? before xs).isSome = !xs.isEmpty := by
  cases xs <;> simp [lastGreatest?]

end Solids
