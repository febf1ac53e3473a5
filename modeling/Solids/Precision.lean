/-!
# Two precisions

All numbers are of double precision but those of vertex colors, which are of single precision. The
two conversions round to the nearest number, in a tie to the one whose last place is even
(`Binary.rounded`). A wider number is always exact (`Binary.widen`); a narrower one may be infinite
or a zero where the number is not (`Binary.narrow`).
-/

namespace Solids.Binary

open Float.Model

/-- The parts of a number rounded to a format. Zeros keep their sign, infinities and `NaN`s stay
    such. -/
def rounded (format : Format) : UnpackedFloat → UnpackedFloat
  | .finite sign mantissa exponent _ => .round format sign mantissa exponent
  | special => special

/-- The number in double precision. -/
def widen (x : Float32) : Float := ⟨.pack (rounded .binary64 x.toModel.unpack)⟩

/-- The nearest number of single precision. -/
def narrow (x : Float) : Float32 := ⟨.pack (rounded .binary32 x.toModel.unpack)⟩

end Solids.Binary
