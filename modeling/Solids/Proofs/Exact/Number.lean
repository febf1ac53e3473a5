import Mathlib.Analysis.SpecialFunctions.Trigonometric.Basic
import Solids.Vector

/-!
# Exact numbers

The real numbers as numbers of the library. What is proved over them is proved of the geometry that
the algorithms mean, where nothing is rounded: roots are exact, and so are the sine and the cosine
of a turn.

Two things that the library asks of its numbers real numbers do not have, and a `Reading` brings
them along: a number in place of infinity, and bit patterns. Statements hold for every reading, so
they do not depend on how great that number is, and the patterns may be chosen to tell the numbers
of a model apart.

A quotient by zero and the root of a negative number are zero, and zero counts as positive where a
sign is copied.
-/

namespace Solids

/-- What the library asks of its numbers beside what the real numbers are. -/
class Reading where
  /-- The number in place of infinity. -/
  infinity : ℝ
  infinity_pos : 0 < infinity
  /-- The pattern by which two numbers are told apart. -/
  bits : ℝ → UInt64

noncomputable instance [Reading] : Scalar ℝ where
  decLt := inferInstance
  decLe := inferInstance
  ofNat n := n
  pi := Real.pi
  infinity := Reading.infinity
  abs x := |x|
  sqrt := Real.sqrt
  sin := Real.sin
  cos := Real.cos
  hypot x y := √(x * x + y * y)
  copySign x y := if y < 0 then -|x| else |x|
  isNaN _ := false
  isFinite _ := true
  precedes x y := decide (x < y)
  bits := Reading.bits

variable [Reading]

namespace Scalar

/-- The number in place of infinity is positive. -/
theorem infinity_pos : (0 : ℝ) < infinity := Reading.infinity_pos

/-- Zero as it is written among numbers. -/
theorem zero_eq : (0.0 : ℝ) = 0 := by norm_num

/-- One half as it is written among numbers. -/
theorem half_eq : (0.5 : ℝ) = 1 / 2 := by norm_num

/-- One as it is written among numbers. -/
theorem one_eq : (1.0 : ℝ) = 1 := by norm_num

/-- Two as it is written among numbers. -/
theorem two_eq : (2.0 : ℝ) = 2 := by norm_num

/-- The lesser of two numbers is their minimum. -/
@[simp] theorem lesser_eq_min (a b : ℝ) : lesser a b = min a b := by
  change (if b < a then b else a) = min a b
  rcases lt_or_ge b a with h | h
  · rw [if_pos h, min_eq_right h.le]
  · rw [if_neg h.not_gt, min_eq_left h]

/-- The greater of two numbers is their maximum. -/
@[simp] theorem greater_eq_max (a b : ℝ) : greater a b = max a b := by
  change (if a < b then b else a) = max a b
  rcases lt_or_ge a b with h | h
  · rw [if_pos h, max_eq_right h.le]
  · rw [if_neg h.not_gt, max_eq_left h]

/-- One with the sign of a number. -/
theorem copySign_one (a : ℝ) : copySign 1.0 a = if a < 0 then -1 else 1 := by
  change (if a < 0 then -|(1.0 : ℝ)| else |(1.0 : ℝ)|) = _
  norm_num

/-- A clamped number lies between zero and one. -/
theorem clampUnit_mem (a : ℝ) : 0 ≤ clampUnit a ∧ clampUnit a ≤ 1 := by
  rw [clampUnit]
  split
  · norm_num
  · next hlow =>
    split
    · norm_num
    · next hhigh =>
      norm_num at hlow hhigh
      exact ⟨hlow, hhigh⟩

/-- A number between zero and one is not changed by clamping. -/
theorem clampUnit_of_mem {a : ℝ} (ha : 0 ≤ a) (ha' : a ≤ 1) : clampUnit a = a := by
  rw [clampUnit, zero_eq, one_eq, if_neg ha.not_gt, if_neg ha'.not_gt]

/-- The greatest of a start and the elements of a list is above them. -/
theorem le_foldl_greater (a : ℝ) (xs : List ℝ) : ∀ x ∈ a :: xs, x ≤ xs.foldl greater a := by
  induction xs generalizing a with
  | nil => exact List.forall_mem_singleton.2 le_rfl
  | cons y ys ih =>
    obtain ⟨hstart, hys⟩ := List.forall_mem_cons.1 (ih (greater a y))
    rw [greater_eq_max] at hstart hys
    rw [List.foldl_cons, greater_eq_max]
    have ha := (le_max_left a y).trans hstart
    have hy := (le_max_right a y).trans hstart
    exact List.forall_mem_cons.2 ⟨ha, List.forall_mem_cons.2 ⟨hy, hys⟩⟩

/-- The sum of a list of numbers from left to right. -/
theorem sum_eq_sum (xs : List ℝ) : sum xs = xs.sum := by
  rw [sum, zero_eq, List.sum_eq_foldl]

end Scalar

/-- The fine tolerance is positive. -/
theorem tolerance_pos : (0 : ℝ) < tolerance := by
  norm_num [tolerance]

/-- The coarse tolerance is positive. -/
theorem planeTolerance_pos : (0 : ℝ) < planeTolerance := by
  norm_num [planeTolerance]

end Solids
