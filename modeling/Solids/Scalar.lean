/-!
# Numbers

The operations that geometry asks of its numbers (`Scalar`). Every algorithm of the library that
moves points is written once over them, in a fixed order of operations, and has therefore one
meaning per number type: at `Float` it is what runs, at an exact number type it is the geometry
meant. The class holds operations and no laws, since binary floating-point numbers satisfy few: a
statement proved from the class alone holds also where a `NaN` or an infinity turns up.

`<`, `≤` and `==` are the comparisons of the number type, at `Float` those of IEEE 754 (false
against a `NaN`, and `0.0 == -0.0`). Two further orders and identities do not depend on them:
`precedes` orders all numbers, and `bits` is the pattern by which two numbers are told apart.

`hypot` is an operation of its own and not the root of a sum of squares: those squares may overflow
where the length does not, and the rounding of their sum shows in the last place of the root.
-/

namespace Solids

/-- The operations that geometry asks of its numbers. -/
class Scalar (α : Type) extends Add α, Sub α, Mul α, Div α, Neg α, BEq α, LT α, LE α,
    OfScientific α where
  /-- The comparisons are decidable. -/
  decLt : DecidableLT α
  decLe : DecidableLE α
  /-- The number nearest to a natural number. -/
  ofNat : Nat → α
  /-- The ratio of a circle's circumference to its diameter. -/
  pi : α
  /-- A number above all others. -/
  infinity : α
  abs : α → α
  sqrt : α → α
  sin : α → α
  cos : α → α
  /-- The length of a plane vector, from its components. -/
  hypot : α → α → α
  /-- The first number with the sign of the second. -/
  copySign : α → α → α
  isNaN : α → Bool
  /-- Neither infinite nor a `NaN`. -/
  isFinite : α → Bool
  /-- A strict total order of all numbers, with `-0` before `0` and the `NaN`s outermost. -/
  precedes : α → α → Bool
  /-- The pattern of a number, one for both zeros and one for all `NaN`s. -/
  bits : α → UInt64

namespace Scalar

variable {α : Type} [Scalar α]

instance (a b : α) : Decidable (a < b) := decLt a b

instance (a b : α) : Decidable (a ≤ b) := decLe a b

/-- The lesser of two numbers; a `NaN` gives way to the other number. -/
def lesser (a b : α) : α :=
  if b < a then b else if isNaN a then b else a

/-- The greater of two numbers; a `NaN` gives way to the other number. -/
def greater (a b : α) : α :=
  if a < b then b else if isNaN a then b else a

/-- `1` or `-1`, by the sign of a number, where a zero has one too; a `NaN` stays one. -/
def signum (a : α) : α :=
  if isNaN a then a else copySign 1.0 a

/-- The nearest number in `0 ≤ · ≤ 1`; a `NaN` stays one. -/
def clampUnit (a : α) : α :=
  if a < 0.0 then 0.0 else if 1.0 < a then 1.0 else a

/-- The sum of a list, from left to right. -/
def sum (xs : List α) : α :=
  xs.foldl (· + ·) 0.0

end Scalar

/-! ## Binary floating-point numbers -/

namespace Binary

/-- The bits of `0.0 == -0.0` are those of `0.0`, and all `NaN`s have the same. -/
def normalBits (x : Float) : UInt64 :=
  if x == 0.0 then 0
  else if x.isNaN then 0x7ff8000000000000
  else x.toBits

/-- The magnitude of `x` with the sign bit of `y`. -/
def copySign (x y : Float) : Float :=
  Float.ofBits ((x.toBits &&& 0x7fffffffffffffff) ||| (y.toBits &&& 0x8000000000000000))

/-- The power of two of an exponent from `-1022` to `1023`. -/
def powerOfTwo (exponent : Int) : Float :=
  Float.ofBits ((exponent + 1023).toNat.toUInt64 <<< 52)

/-- The length of a plane vector with the components `a ≥ b ≥ 0`, whose squares are in the range
    of the numbers. The root of the sum of the squares is corrected by what its own square is too
    great by. -/
def lengthInRange (a b : Float) : Float :=
  let h := (a * a + b * b).sqrt
  -- Differences from the component nearer to `h` are small, and little of them is rounded off.
  let excess :=
    if h ≤ 2.0 * b then
      let d := h - b
      a * (2.0 * d - a) + (d - 2.0 * (a - b)) * d
    else
      let d := h - a
      2.0 * d * (a - 2.0 * b) + ((4.0 * d - b) * b + d * d)
  h - excess / (2.0 * h)

/-- The length of a plane vector to within an ulp. It is infinite where a component is, and else a
    `NaN` where one is. Components whose squares leave the range of the numbers are scaled into it,
    and one that is lost beside the other is only added to it. -/
def hypot (x y : Float) : Float :=
  let a := if x.abs < y.abs then y.abs else x.abs
  let b := if x.abs < y.abs then x.abs else y.abs
  let scale := powerOfTwo (-600)
  let lost := powerOfTwo (-54)
  if x.isInf || y.isInf then Float.ofBits 0x7ff0000000000000
  else if x.isNaN || y.isNaN then x + y
  else if powerOfTwo 511 < a then
    if b ≤ a * lost then a + b else lengthInRange (a * scale) (b * scale) / scale
  else if b < powerOfTwo (-459) then
    if b / lost ≤ a then a + b else lengthInRange (a / scale) (b / scale) * scale
  else if b ≤ a * lost then a + b
  else lengthInRange a b

/-- The place of a number in the total order: negative numbers are turned around below the
    others. -/
def rank (x : Float) : UInt64 :=
  let b := x.toBits
  if b &&& 0x8000000000000000 == 0 then b ||| 0x8000000000000000 else ~~~b

end Binary

instance : Scalar Float where
  decLt a b := inferInstanceAs (Decidable (a < b))
  decLe a b := inferInstanceAs (Decidable (a ≤ b))
  ofNat := Float.ofNat
  pi := 3.141592653589793
  infinity := Float.ofBits 0x7ff0000000000000
  abs := Float.abs
  sqrt := Float.sqrt
  sin := Float.sin
  cos := Float.cos
  hypot := Binary.hypot
  copySign := Binary.copySign
  isNaN := Float.isNaN
  isFinite := Float.isFinite
  precedes a b := Binary.rank a < Binary.rank b
  bits := Binary.normalBits

end Solids
