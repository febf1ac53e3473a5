import Mathlib.Analysis.SpecialFunctions.Trigonometric.Basic
import Solids.Proofs.Exact.Point
import Solids.Transform

/-!
# Boxes over exact numbers

What boxes hold (`Bounds.Holds`), and when one box takes in another (`Bounds.Covers`), as which it
contains it (`Bounds.Covers.contains`). The least box around points holds them, and a box that
holds all of them takes it in (`Bounds.covers_ofPoints`). Boxes that are put together, moved, grown
and transformed hold what they are meant to hold, and a box that takes in another one still does so
after both are.

The empty box is reversed: its least corner is the infinite one. So a box takes in the least box
around points only if its own least corner is no greater than that (`Bounds.Proper`), as it is in
all boxes that the library makes.

A transform takes a box to the least box around the images of its corners. It holds the images of
all points of the box (`Bounds.Holds.transformed`), since these lie between the images of the
corners (`Vec3.Convex`).
-/

namespace Solids

variable [Reading]

/-! ## Boxes -/

namespace Bounds

/-- The box holds the point. -/
def Holds (b : Bounds ℝ) (p : Vec3 ℝ) : Prop := b.min ≤ p ∧ p ≤ b.max

/-- The box takes in the second one, or that is empty. -/
def Covers (a b : Bounds ℝ) : Prop := b.isEmpty = true ∨ a.min ≤ b.min ∧ b.max ≤ a.max

/-- The corners of the box are no further out than those of the empty one, which is reversed. -/
def Proper (b : Bounds ℝ) : Prop :=
  b.min ≤ .splat Scalar.infinity ∧ .splat (-Scalar.infinity) ≤ b.max

variable {a b c : Bounds ℝ} {p q : Vec3 ℝ} {ps : List (Vec3 ℝ)}

/-- A box is not empty if its corners are in order. -/
theorem isEmpty_eq_false_iff : b.isEmpty = false ↔ b.min ≤ b.max := by
  simp only [isEmpty, Bool.or_eq_false_iff, decide_eq_false_iff_not, not_lt, and_assoc]
  rfl

/-- A box that holds a point is not empty. -/
theorem Holds.isEmpty_eq_false (h : b.Holds p) : b.isEmpty = false :=
  isEmpty_eq_false_iff.2 (h.1.trans h.2)

/-- A box holds the points between those it holds. -/
theorem convex_holds (b : Bounds ℝ) : Vec3.Convex b.Holds := by
  intro p q s hp hq h0 h1
  have hlow {l x y : ℝ} (hx : l ≤ x) (hy : l ≤ y) : l ≤ x + (y - x) * s := by nlinarith
  have hhigh {u x y : ℝ} (hx : x ≤ u) (hy : y ≤ u) : x + (y - x) * s ≤ u := by nlinarith
  exact ⟨⟨hlow hp.1.1 hq.1.1, hlow hp.1.2.1 hq.1.2.1, hlow hp.1.2.2 hq.1.2.2⟩,
    hhigh hp.2.1 hq.2.1, hhigh hp.2.2.1 hq.2.2.1, hhigh hp.2.2.2 hq.2.2.2⟩

/-- A convex set that holds the corners of a box holds all points of the box. -/
theorem Holds.of_corners {P : Vec3 ℝ → Prop} (hP : Vec3.Convex P) (h : ∀ c ∈ b.corners, P c)
    (hp : b.Holds p) : P p := by
  obtain ⟨⟨hx, hy, hz⟩, hx', hy', hz'⟩ := hp
  obtain ⟨s, hs, hs', hsx⟩ := Vec3.exists_share hx hx'
  obtain ⟨t, ht, ht', hty⟩ := Vec3.exists_share hy hy'
  obtain ⟨u, hu, hu', huz⟩ := Vec3.exists_share hz hz'
  -- From the corners to the edges along `x`, from these to two sides, and between the sides.
  have halong (y z : ℝ) (hlow : P ⟨b.min.x, y, z⟩) (hhigh : P ⟨b.max.x, y, z⟩) :
      P ⟨p.x, y, z⟩ := by
    have := hP _ _ s hlow hhigh hs hs'
    simpa only [Vec3.lerp_eq, hsx, sub_self, zero_mul, add_zero] using this
  have hacross (z : ℝ) (hlow : P ⟨p.x, b.min.y, z⟩) (hhigh : P ⟨p.x, b.max.y, z⟩) :
      P ⟨p.x, p.y, z⟩ := by
    have := hP _ _ t hlow hhigh ht ht'
    simpa only [Vec3.lerp_eq, hty, sub_self, zero_mul, add_zero] using this
  simp only [corners, List.forall_mem_cons] at h
  obtain ⟨h₁, h₂, h₃, h₄, h₅, h₆, h₇, h₈, _⟩ := h
  have hlow := hacross b.min.z (halong _ _ h₁ h₂) (halong _ _ h₃ h₄)
  have hhigh := hacross b.max.z (halong _ _ h₅ h₆) (halong _ _ h₇ h₈)
  have := hP _ _ u hlow hhigh hu hu'
  simpa only [Vec3.lerp_eq, huz, sub_self, zero_mul, add_zero] using this

/-- A box goes at least as far as one that it takes in, unless that is empty. -/
theorem Covers.le (h : a.Covers b) (hb : b.isEmpty = false) : a.min ≤ b.min ∧ b.max ≤ a.max := by
  rcases h with hempty | h
  · exact absurd (hempty.symm.trans hb) Bool.noConfusion
  · exact h

/-- A box is not empty if it takes in one that is not. -/
theorem Covers.isEmpty_eq_false (h : a.Covers b) (hb : b.isEmpty = false) : a.isEmpty = false :=
  isEmpty_eq_false_iff.2 ((h.le hb).1.trans ((isEmpty_eq_false_iff.1 hb).trans (h.le hb).2))

/-- Boxes contain those they take in. -/
theorem Covers.contains (h : a.Covers b) : a.contains b = true := by
  have htol := tolerance_pos
  rw [Bounds.contains]
  cases hb : b.isEmpty with
  | true => rfl
  | false =>
    obtain ⟨⟨hx, hy, hz⟩, hx', hy', hz'⟩ := h.le hb
    rw [h.isEmpty_eq_false hb]
    simp only [Bool.false_eq_true, if_false, Bool.and_eq_true, decide_eq_true_eq]
    change (((((a.min.x ≤ b.min.x + tolerance ∧ a.min.y ≤ b.min.y + tolerance) ∧
      a.min.z ≤ b.min.z + tolerance) ∧ b.max.x - tolerance ≤ a.max.x) ∧
      b.max.y - tolerance ≤ a.max.y) ∧ b.max.z - tolerance ≤ a.max.z)
    refine ⟨⟨⟨⟨⟨?_, ?_⟩, ?_⟩, ?_⟩, ?_⟩, ?_⟩ <;> linarith

/-- A box takes in itself. -/
theorem covers_refl (b : Bounds ℝ) : b.Covers b := .inr ⟨le_rfl, le_rfl⟩

/-- A box takes in what the boxes do that it takes in. -/
theorem Covers.trans (h : a.Covers b) (h' : b.Covers c) : a.Covers c := by
  cases hc : c.isEmpty with
  | true => exact .inl hc
  | false =>
    obtain ⟨hmin, hmax⟩ := h.le (h'.isEmpty_eq_false hc)
    obtain ⟨hmin', hmax'⟩ := h'.le hc
    exact .inr ⟨hmin.trans hmin', hmax'.trans hmax⟩

/-- A box holds what is held by a box that it takes in. -/
theorem Covers.holds (h : a.Covers b) (hp : b.Holds p) : a.Holds p := by
  obtain ⟨hmin, hmax⟩ := h.le hp.isEmpty_eq_false
  exact ⟨hmin.trans hp.1, hp.2.trans hmax⟩

/-! ### The least box around points -/

/-- The corners of a box extended to points. -/
theorem foldl_including_iff (b c : Bounds ℝ) (ps : List (Vec3 ℝ)) :
    (c.min ≤ (ps.foldl including b).min ↔ c.min ≤ b.min ∧ ∀ p ∈ ps, c.min ≤ p) ∧
      ((ps.foldl including b).max ≤ c.max ↔ b.max ≤ c.max ∧ ∀ p ∈ ps, p ≤ c.max) := by
  induction ps generalizing b with
  | nil => simp
  | cons p ps ih =>
    rw [List.foldl_cons, (ih _).1, (ih _).2]
    simp only [including, Vec3.le_lesser_iff, Vec3.greater_le_iff, List.forall_mem_cons, and_assoc,
      and_self]

/-- The least box around points holds them. -/
theorem holds_ofPoints (hp : p ∈ ps) : (ofPoints ps).Holds p :=
  ⟨((foldl_including_iff _ _ ps).1.1 le_rfl).2 p hp,
    ((foldl_including_iff _ _ ps).2.1 le_rfl).2 p hp⟩

/-- The least box around points is proper. -/
theorem proper_ofPoints (ps : List (Vec3 ℝ)) : (ofPoints ps).Proper :=
  have h := foldl_including_iff empty (ofPoints ps) ps
  ⟨(h.1.1 le_rfl).1, (h.2.1 le_rfl).1⟩

/-- A box takes in the least box around points that it holds. -/
theorem covers_ofPoints (ha : a.Proper) (h : ∀ p ∈ ps, a.Holds p) : a.Covers (ofPoints ps) :=
  .inr ⟨(foldl_including_iff empty a ps).1.2 ⟨ha.1, fun p hp => (h p hp).1⟩,
    (foldl_including_iff empty a ps).2.2 ⟨ha.2, fun p hp => (h p hp).2⟩⟩

/-! ### Boxes put together -/

/-- Two boxes put together take in the first. -/
theorem covers_union_left (a b : Bounds ℝ) : (a.union b).Covers a := by
  rw [Bounds.union]
  split
  · exact a.covers_refl
  · split
    · next ha => exact .inl ha
    · exact .inr ⟨Vec3.lesser_le_left _ _, Vec3.le_greater_left _ _⟩

/-- Two boxes put together take in the second. -/
theorem covers_union_right (a b : Bounds ℝ) : (a.union b).Covers b := by
  rw [union]
  split
  · next hb => exact .inl hb
  · split
    · exact b.covers_refl
    · exact .inr ⟨Vec3.lesser_le_right _ _, Vec3.le_greater_right _ _⟩

/-- A box that takes in two boxes takes them in put together. -/
theorem Covers.union_of (ha : c.Covers a) (hb : c.Covers b) : c.Covers (a.union b) := by
  rw [union]
  split
  · exact ha
  · next hb' =>
    split
    · exact hb
    · next ha' =>
      obtain ⟨hmin, hmax⟩ := ha.le (Bool.eq_false_of_not_eq_true ha')
      obtain ⟨hmin', hmax'⟩ := hb.le (Bool.eq_false_of_not_eq_true hb')
      exact .inr ⟨Vec3.le_lesser_iff.2 ⟨hmin, hmin'⟩, Vec3.greater_le_iff.2 ⟨hmax, hmax'⟩⟩

/-- Proper boxes put together are proper. -/
theorem Proper.union (ha : a.Proper) (hb : b.Proper) : (a.union b).Proper := by
  rw [Bounds.union]
  split
  · exact ha
  · split
    · exact hb
    · exact ⟨(Vec3.lesser_le_left _ _).trans ha.1, ha.2.trans (Vec3.le_greater_left _ _)⟩

/-- The empty box is proper. -/
theorem proper_empty : (empty : Bounds ℝ).Proper := ⟨le_rfl, le_rfl⟩

/-- A box extended to others takes in all of them. -/
theorem covers_foldl_union (a : Bounds ℝ) (bs : List (Bounds ℝ)) :
    ∀ b ∈ a :: bs, (bs.foldl Bounds.union a).Covers b := by
  induction bs generalizing a with
  | nil => exact List.forall_mem_singleton.2 a.covers_refl
  | cons b bs ih =>
    obtain ⟨hstart, hbs⟩ := List.forall_mem_cons.1 (ih (a.union b))
    have ha := hstart.trans (covers_union_left a b)
    have hb := hstart.trans (covers_union_right a b)
    exact List.forall_mem_cons.2 ⟨ha, List.forall_mem_cons.2 ⟨hb, hbs⟩⟩

/-- A box that takes in others takes in the box that is extended to them. -/
theorem Covers.foldl_union_of {bs : List (Bounds ℝ)} (ha : c.Covers a)
    (hbs : ∀ b ∈ bs, c.Covers b) : c.Covers (bs.foldl Bounds.union a) := by
  induction bs generalizing a with
  | nil => exact ha
  | cons b bs ih =>
    obtain ⟨hb, hbs⟩ := List.forall_mem_cons.1 hbs
    exact ih (ha.union_of hb) hbs

/-- A proper box extended to proper boxes is proper. -/
theorem Proper.foldl_union {bs : List (Bounds ℝ)} (ha : a.Proper) (hbs : ∀ b ∈ bs, b.Proper) :
    (bs.foldl Bounds.union a).Proper := by
  induction bs generalizing a with
  | nil => exact ha
  | cons b bs ih =>
    obtain ⟨hb, hbs⟩ := List.forall_mem_cons.1 hbs
    exact ih (ha.union hb) hbs

/-! ### Boxes moved, grown and transformed -/

/-- A moved box holds the points of the box when they are moved. -/
theorem Holds.translated (h : b.Holds p) (offset : Vec3 ℝ) :
    (b.translated offset).Holds (p + offset) := by
  rw [Bounds.translated, h.isEmpty_eq_false, if_neg Bool.false_ne_true]
  obtain ⟨⟨hx, hy, hz⟩, hx', hy', hz'⟩ := h
  refine ⟨⟨?_, ?_, ?_⟩, ?_, ?_, ?_⟩ <;> exact add_le_add_left ‹_› _

/-- A grown box holds what is not farther from a point of the box in any component. -/
theorem Holds.expanded (h : b.Holds p) {r : ℝ} (hq : |q.x| ≤ r ∧ |q.y| ≤ r ∧ |q.z| ≤ r) :
    (b.expanded r).Holds (p + q) := by
  rw [Bounds.expanded, h.isEmpty_eq_false, if_neg Bool.false_ne_true]
  obtain ⟨⟨hx, hy, hz⟩, hx', hy', hz'⟩ := h
  obtain ⟨hqx, hqy, hqz⟩ := hq
  have hqx := abs_le.1 hqx
  have hqy := abs_le.1 hqy
  have hqz := abs_le.1 hqz
  have hlow {l x y : ℝ} (hx : l ≤ x) (hy : -r ≤ y) : l - r ≤ x + y := by linarith
  exact ⟨⟨hlow hx hqx.1, hlow hy hqy.1, hlow hz hqz.1⟩, add_le_add hx' hqx.2,
    add_le_add hy' hqy.2, add_le_add hz' hqz.2⟩

/-- A proper box that is grown is proper. -/
theorem Proper.expanded (h : b.Proper) {r : ℝ} (hr : 0 ≤ r) : (b.expanded r).Proper := by
  rw [Bounds.expanded]
  split
  · exact h
  · obtain ⟨⟨hx, hy, hz⟩, hx', hy', hz'⟩ := h
    have hlow {l u : ℝ} (hl : l ≤ u) : l - r ≤ u := by linarith
    have hhigh {l u : ℝ} (hl : l ≤ u) : l ≤ u + r := by linarith
    exact ⟨⟨hlow hx, hlow hy, hlow hz⟩, hhigh hx', hhigh hy', hhigh hz'⟩

/-- The corners of a box that is not empty are points of it. -/
theorem holds_corners (hb : b.isEmpty = false) : ∀ p ∈ b.corners, b.Holds p := by
  obtain ⟨hx, hy, hz⟩ := isEmpty_eq_false_iff.1 hb
  simp only [corners, List.forall_mem_cons, Holds, Vec3.le_iff, le_refl, hx, hy, hz, and_self,
    true_and]
  exact fun _ hp => absurd hp List.not_mem_nil

/-- A transformed box holds the images of the points of the box. -/
theorem Holds.transformed (h : b.Holds p) (m : Matrix ℝ) :
    (b.transformed m).Holds (m.apply p) := by
  rw [Bounds.transformed, h.isEmpty_eq_false, if_neg Bool.false_ne_true]
  have hconvex := m.convex_apply (ofPoints (b.corners.map m.apply)).convex_holds
  have himage := h.of_corners hconvex fun c hc => holds_ofPoints (List.mem_map_of_mem hc)
  exact himage

/-- A transformed box is proper. -/
theorem Proper.transformed (h : b.Proper) (m : Matrix ℝ) : (b.transformed m).Proper := by
  rw [Bounds.transformed]
  split
  · exact h
  · exact proper_ofPoints _

/-- A box that takes in another does so when both are transformed. -/
theorem Covers.transformed (h : a.Covers b) (m : Matrix ℝ) :
    (a.transformed m).Covers (b.transformed m) := by
  cases hb : b.isEmpty with
  | true =>
    rw [Bounds.transformed.eq_def b, if_pos hb]
    exact .inl hb
  | false =>
    -- The corners of the smaller box are points of the greater one.
    have hcorners : ∀ q ∈ b.corners.map m.apply, (a.transformed m).Holds q :=
      List.forall_mem_map.2 fun p hp => (h.holds (holds_corners hb p hp)).transformed m
    rw [Bounds.transformed, h.isEmpty_eq_false hb, if_neg Bool.false_ne_true] at hcorners ⊢
    rw [Bounds.transformed, hb, if_neg Bool.false_ne_true]
    exact covers_ofPoints (proper_ofPoints _) hcorners

end Bounds

/-! ### Boxes in their places -/

namespace Transform

variable {a b : Bounds ℝ}

/-- A box in its place is proper. -/
theorem proper_applyBounds (t : Transform ℝ) (h : b.Proper) : (t.applyBounds b).Proper := by
  rw [applyBounds]
  split
  · exact h
  · exact h.transformed _

/-- A box that takes in another does so when both are put in one place. -/
theorem covers_applyBounds (t : Transform ℝ) (h : a.Covers b) :
    (t.applyBounds a).Covers (t.applyBounds b) := by
  rw [applyBounds, applyBounds]
  split
  · exact h
  · exact h.transformed _

end Transform

end Solids
