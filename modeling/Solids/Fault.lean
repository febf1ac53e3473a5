import Solids.Scalar

/-!
# Faults

What ends an operation without a result. The indices and colors of a mesh that was written down
rather than made are taken as they are, and the operations that read through them fault where one
points past its list. So do those that move an index up past the last number of 32 bits
(`checkedSum`). A fault is not an error about geometry (`MeshError`), which callers answer with an
empty mesh.
-/

namespace Solids

/-- What ends an operation without a result. -/
inductive Fault
  /-- A corner past the list of vertices. -/
  | vertex (index : UInt32)
  /-- A position past the list of triangles. -/
  | triangle (index : Nat)
  /-- A vertex past the list of colors. -/
  | color (index : UInt32)
  /-- Two indices or counts whose sum is too great for one. -/
  | overflow (i j : UInt32)
  /-- A place in a text that ends before it starts. -/
  | reversedSpan (start stop : UInt64)
  /-- A polygon that does not lie on its own plane, by which no finite tree can divide it. -/
  | endlessDivision
  deriving DecidableEq

/-- The sum of two indices or counts, if it has 32 bits. -/
def checkedSum (i j : UInt32) : Except Fault UInt32 :=
  if i.toNat + j.toNat < UInt32.size then .ok (i + j) else .error (.overflow i j)

/-- A checked sum is the sum of the numbers. -/
theorem checkedSum_eq_ok_iff {i j k : UInt32} :
    checkedSum i j = .ok k ↔ i.toNat + j.toNat = k.toNat := by
  have hk := k.toNat_lt
  have hs : UInt32.size = 2 ^ 32 := rfl
  unfold checkedSum
  split
  · rw [Except.ok.injEq, ← UInt32.toNat_inj, UInt32.toNat_add, Nat.mod_eq_of_lt (by omega)]
  · simp only [reduceCtorEq, false_iff]
    omega

end Solids
