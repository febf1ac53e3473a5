/-!
# Vertex colors

A color with four components of single precision, as vertices carry it, and the light gray of
everything that was not painted.
-/

namespace Solids

/-- A vertex color: red, green, blue and the share of light it holds back, each from 0 to 1. -/
structure Rgba where
  r : Float32
  g : Float32
  b : Float32
  a : Float32
  deriving BEq

namespace Rgba

/-- The color of what was not painted. -/
def unpainted : Rgba := ⟨0.8, 0.8, 0.8, 1.0⟩

/-- The four components, in order. -/
def toList (c : Rgba) : List Float32 :=
  [c.r, c.g, c.b, c.a]

end Rgba

end Solids
