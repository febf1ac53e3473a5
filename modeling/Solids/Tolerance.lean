import Solids.Scalar

/-!
# Tolerances

Two distances below which geometry does not tell things apart. The fine one (`tolerance`) decides
when points coincide and when a vector has no direction; the coarse one (`planeTolerance`) decides
when a point lies on a cutting plane: points made by cutting carry rounding errors, and must still
be found on the plane that they were cut from.
-/

namespace Solids

variable {α : Type} [Scalar α]

/-- The distance below which two points coincide. -/
def tolerance : α := 1e-10

/-- The distance up to which a point lies on a cutting plane. -/
def planeTolerance : α := 1e-5

/-- Two numbers agree within the tolerance. -/
def approxEqual (a b : α) : Bool :=
  Scalar.abs (a - b) < tolerance

/-- A number is zero within the tolerance. -/
def approxZero (a : α) : Bool :=
  Scalar.abs a < tolerance

end Solids
