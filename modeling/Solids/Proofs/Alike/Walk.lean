import Mathlib.Data.List.Forall2
import Mathlib.Data.List.Zip
import Solids.Cycle

/-!
# Walks through related sequences

Two sequences whose elements are related one by one are walked through in the same way: their
steps, turns, neighbors, fans and bands are related one by one.
-/

namespace Solids

variable {β γ δ ε : Type} {R : β → γ → Prop} {S : δ → ε → Prop}

/-- The first and the second component are related. -/
def Both (R : β → γ → Prop) (S : δ → ε → Prop) (p : β × δ) (q : γ × ε) : Prop :=
  R p.1 q.1 ∧ S p.2 q.2

/-- The corners are related, one by one. -/
def Triangle.Rel (R : β → γ → Prop) (t : Triangle β) (u : Triangle γ) : Prop :=
  R t.a u.a ∧ R t.b u.b ∧ R t.c u.c

/-- Triangles that are related stay so turned around. -/
theorem Triangle.Rel.flip {t : Triangle β} {u : Triangle γ} (h : Triangle.Rel R t u) :
    Triangle.Rel R t.flip u.flip :=
  ⟨h.1, h.2.2, h.2.1⟩

/-- The images of related corners are related. -/
theorem Triangle.Rel.map {t : Triangle β} {u : Triangle γ} {f : β → δ} {g : γ → ε}
    (hf : ∀ x y, R x y → S (f x) (g y)) (h : Triangle.Rel R t u) :
    Triangle.Rel S (t.map f) (u.map g) :=
  ⟨hf _ _ h.1, hf _ _ h.2.1, hf _ _ h.2.2⟩

/-- The corners of related triangles are related, one by one. -/
theorem Triangle.Rel.toList {t : Triangle β} {u : Triangle γ} (h : Triangle.Rel R t u) :
    List.Forall₂ R t.toList u.toList :=
  .cons h.1 (.cons h.2.1 (.cons h.2.2 .nil))

section Walks

variable {xs : List β} {ys : List γ}

/-- Elements at one place in related sequences are related. -/
theorem rel_zip {xs' : List δ} {ys' : List ε} (h : List.Forall₂ R xs ys)
    (h' : List.Forall₂ S xs' ys') :
    List.Forall₂ (Both R S) (xs.zip xs') (ys.zip ys') := by
  induction h generalizing xs' ys' with
  | nil => exact .nil
  | cons hx _ ih =>
    cases h' with
    | nil => exact .nil
    | cons hx' h' => exact .cons ⟨hx, hx'⟩ (ih h')

/-- The first elements of related sequences are related. -/
theorem rel_head? (h : List.Forall₂ R xs ys) : Option.Rel R xs.head? ys.head? := by
  cases h with
  | nil => exact .none
  | cons hx _ => exact .some hx

/-- The last elements of related sequences are related. -/
theorem rel_getLast? (h : List.Forall₂ R xs ys) : Option.Rel R xs.getLast? ys.getLast? := by
  rw [List.getLast?_eq_head?_reverse, List.getLast?_eq_head?_reverse]
  exact rel_head? (List.rel_reverse h)

/-- Related sequences are both empty, or both have a first and a last element, and these are
    related. -/
theorem ends_of_rel (h : List.Forall₂ R xs ys) :
    (xs = [] ∧ ys = []) ∨
      ∃ x x' y y', xs.head? = some x ∧ xs.getLast? = some x' ∧ ys.head? = some y ∧
        ys.getLast? = some y' ∧ R x y ∧ R x' y' := by
  have hlast := rel_getLast? h
  cases h with
  | nil => exact .inl ⟨rfl, rfl⟩
  | @cons x y xs ys hx _ =>
    rw [List.getLast?_cons, List.getLast?_cons] at hlast ⊢
    cases hlast with
    | some hlast => exact .inr ⟨x, _, y, _, rfl, rfl, rfl, rfl, hx, hlast⟩

/-- What related options hold is related. -/
theorem rel_toList {o : Option β} {o' : Option γ} (h : Option.Rel R o o') :
    List.Forall₂ R o.toList o'.toList := by
  cases h with
  | none => exact .nil
  | some hx => exact .cons hx .nil

/-- Repetitions of related elements are related. -/
theorem rel_replicate (n : Nat) {x : β} {y : γ} (h : R x y) :
    List.Forall₂ R (List.replicate n x) (List.replicate n y) := by
  induction n with
  | zero => exact .nil
  | succ n ih => exact .cons h ih

/-- Related sequences without their last elements are related. -/
theorem rel_dropLast (h : List.Forall₂ R xs ys) : List.Forall₂ R xs.dropLast ys.dropLast := by
  rw [List.dropLast_eq_take, List.dropLast_eq_take, h.length_eq]
  exact List.forall₂_take _ h

/-- The steps along related sequences are related. -/
theorem rel_steps (closed : Bool) (h : List.Forall₂ R xs ys) :
    List.Forall₂ (Both R R) (steps closed xs) (steps closed ys) := by
  cases h with
  | nil => exact .nil
  | cons hx h =>
    cases closed with
    | false => exact rel_zip (.cons hx h) h
    | true => exact rel_zip (.cons hx h) (List.rel_append h (.cons hx .nil))

/-- The turns along related sequences are related. -/
theorem rel_turns (h : List.Forall₂ R xs ys) :
    List.Forall₂ (Triangle.Rel R) (turns xs) (turns ys) := by
  cases h with
  | nil => exact .nil
  | @cons x y xs ys hx h =>
    have hlast : R ((x :: xs).getLast (List.cons_ne_nil x xs))
        ((y :: ys).getLast (List.cons_ne_nil y ys)) := by
      have hrel := rel_getLast? (List.Forall₂.cons hx h)
      rw [List.getLast?_eq_some_getLast (List.cons_ne_nil x xs),
        List.getLast?_eq_some_getLast (List.cons_ne_nil y ys)] at hrel
      cases hrel with
      | some hrel => exact hrel
    have hzip := rel_zip (.cons hlast (.cons hx h))
      (rel_zip (.cons hx h) (List.rel_append h (.cons hx .nil)))
    exact List.rel_map (fun _ _ ⟨ha, hb, hc⟩ => ⟨ha, hb, hc⟩) hzip

/-- The elements of related sequences have related neighbors. -/
theorem rel_neighbors (closed : Bool) (h : List.Forall₂ R xs ys) :
    List.Forall₂ (Both (Option.Rel R) (Both R (Option.Rel R)))
      (neighbors closed xs) (neighbors closed ys) := by
  cases closed with
  | true =>
    exact List.rel_map (fun _ _ ⟨ha, hb, hc⟩ => ⟨.some ha, hb, .some hc⟩) (rel_turns h)
  | false =>
    have hsome {xs : List β} {ys : List γ} (h : List.Forall₂ R xs ys) :
        List.Forall₂ (Option.Rel R) (xs.map some) (ys.map some) :=
      List.rel_map (fun _ _ hx => .some hx) h
    exact rel_zip (.cons .none (hsome h))
      (rel_zip h (List.rel_append (hsome (List.forall₂_drop 1 h)) (.cons .none .nil)))

/-- The fans of related rings are related. -/
theorem rel_fan (h : List.Forall₂ R xs ys) :
    List.Forall₂ (Triangle.Rel R) (fan xs) (fan ys) := by
  cases h with
  | nil => exact .nil
  | cons hx h => exact List.rel_map (fun _ _ ⟨hp, hq⟩ => ⟨hx, hp, hq⟩) (rel_steps false h)

/-- The bands between related rings are related. -/
theorem rel_band (closed : Bool) {xs' : List β} {ys' : List γ} (h : List.Forall₂ R xs ys)
    (h' : List.Forall₂ R xs' ys') :
    List.Forall₂ (Triangle.Rel R) (band closed xs xs') (band closed ys ys') :=
  List.rel_flatMap (rel_steps closed (rel_zip h h')) fun _ _ ⟨⟨hp, hp'⟩, hq, hq'⟩ =>
    rel_fan (.cons hp (.cons hq (.cons hq' (.cons hp' .nil))))

/-- Maps with related values have related images of one sequence. -/
theorem rel_map_same (xs : List β) {f : β → δ} {g : β → ε} (h : ∀ x, S (f x) (g x)) :
    List.Forall₂ S (xs.map f) (xs.map g) := by
  rw [List.forall₂_map_left_iff, List.forall₂_map_right_iff, List.forall₂_same]
  exact fun x _ => h x

/-- What is the same for related elements makes the same list. -/
theorem map_eq_of_rel {f : β → δ} {g : γ → δ} (hf : ∀ x y, R x y → f x = g y)
    (h : List.Forall₂ R xs ys) : xs.map f = ys.map g := by
  rw [← List.forall₂_eq_eq_eq]
  exact List.rel_map hf h

/-- What holds of an element if it holds of the related one, holds of one of both sequences. -/
theorem any_eq_of_rel {f : β → Bool} {g : γ → Bool} (hf : ∀ x y, R x y → f x = g y)
    (h : List.Forall₂ R xs ys) : xs.any f = ys.any g := by
  have hmap (xs : List β) : xs.any f = (xs.map f).any id := by rw [List.any_map]; rfl
  rw [hmap, map_eq_of_rel hf h, List.any_map]
  rfl

/-- What holds of an element if it holds of the related one, holds of all of both sequences or of
    all of neither. -/
theorem all_eq_of_rel {f : β → Bool} {g : γ → Bool} (hf : ∀ x y, R x y → f x = g y)
    (h : List.Forall₂ R xs ys) : xs.all f = ys.all g := by
  rw [List.all_eq_not_any_not, List.all_eq_not_any_not,
    any_eq_of_rel (fun x y hx => congrArg not (hf x y hx)) h]

/-- What is first found in related sequences is related. -/
theorem rel_findSome? {f : β → Option δ} {g : γ → Option ε}
    (hf : ∀ x y, R x y → Option.Rel S (f x) (g y)) (h : List.Forall₂ R xs ys) :
    Option.Rel S (xs.findSome? f) (ys.findSome? g) := by
  induction h with
  | nil => exact .none
  | @cons x y _ _ hx _ ih =>
    have hxy := hf x y hx
    rw [List.findSome?_cons, List.findSome?_cons]
    generalize f x = o at hxy
    generalize g y = o' at hxy
    cases hxy with
    | none => exact ih
    | some hs => exact .some hs

/-- Related elements are taken out of related sequences at one place if elements are the same
    exactly if the related ones are. -/
theorem rel_erase [DecidableEq β] [DecidableEq γ]
    (heq : ∀ x y x' y', R x y → R x' y' → (x = x' ↔ y = y')) {x : β} {y : γ} (hx : R x y)
    (h : List.Forall₂ R xs ys) : List.Forall₂ R (xs.erase x) (ys.erase y) := by
  induction h with
  | nil => exact .nil
  | cons hx' h ih =>
    rw [List.erase_cons, List.erase_cons]
    simp only [beq_iff_eq, heq _ _ _ _ hx' hx]
    split
    · exact h
    · exact .cons hx' ih

/-- The elements of related sequences are related with their places. -/
theorem rel_zipIdx (n : Nat) (h : List.Forall₂ R xs ys) :
    List.Forall₂ (Both R Eq) (xs.zipIdx n) (ys.zipIdx n) := by
  induction h generalizing n with
  | nil => exact .nil
  | cons hx _ ih => exact .cons ⟨hx, rfl⟩ (ih (n + 1))

/-- What a walk along related sequences comes to is the same if every step makes the same of what
    the walk had come to, as long as that keeps an invariant. -/
theorem foldl_eq_of_rel {I : δ → Prop} {f : δ → β → δ} {g : δ → γ → δ} {d : δ}
    (hstep : ∀ d x y, I d → R x y → f d x = g d y ∧ I (f d x)) (hd : I d)
    (h : List.Forall₂ R xs ys) : xs.foldl f d = ys.foldl g d := by
  induction h generalizing d with
  | nil => rfl
  | cons hx _ ih =>
    obtain ⟨heq, hinv⟩ := hstep d _ _ hd hx
    rw [List.foldl_cons, List.foldl_cons, ← heq]
    exact ih hinv

end Walks

end Solids
