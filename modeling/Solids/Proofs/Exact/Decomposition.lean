import Mathlib.Analysis.SpecialFunctions.Trigonometric.Basic
import Solids.Proofs.Exact.Turn
import Solids.Transform

/-!
# Matrices taken apart

Over exact numbers, a matrix whose three axes are at right angles is put together again from the
scale, the rotation and the offset that it is taken apart into (`Transform.matrix_ofMatrix`). What
is taken apart wrong is a shear, and an axis without length.

The rotation is found in one of four ways, by the greatest component of the quaternion, and
recovers the axes in each of them (`Rotation.turns_rotationOfAxes`). For axes at right angles, each
the cross product of the other two (`Vec3.Frame`), the products of two components of the quaternion
are sums of components of the axes, and each product of four can be had by way of the greatest one.
-/

namespace Solids

variable [Reading]

/-! ## Frames -/

namespace Vec3

/-- Three unit vectors at right angles, as the axes are turned: each is the cross product of the
    other two. -/
structure Frame (a b c : Vec3 ℝ) : Prop where
  fst_eq : a = b.cross c
  snd_eq : b = c.cross a
  trd_eq : c = a.cross b
  isUnit : a.IsUnit

variable {a b c : Vec3 ℝ}

/-- For vectors at right angles, the volume is the product of their lengths, up to the sign. -/
theorem volume_mul_volume (hab : a.dot b = 0) (hbc : b.dot c = 0) (hca : c.dot a = 0) :
    volume a b c * volume a b c = a.lengthSq * b.lengthSq * c.lengthSq := by
  have hgram : volume a b c * volume a b c = a.lengthSq * b.lengthSq * c.lengthSq +
      2 * a.dot b * b.dot c * c.dot a - a.lengthSq * (b.dot c * b.dot c) -
        b.lengthSq * (c.dot a * c.dot a) - c.lengthSq * (a.dot b * a.dot b) := by
    simp only [volume, lengthSq_eq, dot_eq, cross]
    ring
  rw [hgram, hab, hbc, hca]
  ring

/-- The volume goes with each of the vectors. -/
theorem volume_mul (a b c : Vec3 ℝ) (s t u : ℝ) :
    volume (a * s) (b * t) (c * u) = volume a b c * (s * t * u) := by
  simp only [volume, dot_eq, cross, mul_eq]
  ring

/-- So does the product of two. -/
theorem dot_mul_mul (a b : Vec3 ℝ) (s t : ℝ) : (a * s).dot (b * t) = a.dot b * (s * t) := by
  simp only [dot_eq, mul_eq]
  ring

/-- What has the length of a vector with a length, up to the sign, is not zero. -/
theorem ne_zero_of_mul_self {s : ℝ} (h : s * s = a.lengthSq) (ha : 0 < a.lengthSq) : s ≠ 0 := by
  rintro rfl
  rw [mul_zero] at h
  exact ha.ne h

/-- A vector that is divided by what has its length is a unit vector. -/
theorem isUnit_mul_one_div {s : ℝ} (h : s * s = a.lengthSq) (ha : 0 < a.lengthSq) :
    (a * (1.0 / s)).IsUnit := by
  have hs := ne_zero_of_mul_self h ha
  rw [IsUnit, lengthSq_mul, ← h, Scalar.one_eq]
  field_simp

/-- A unit vector at right angles to two others that span a square of area one with it is their
    cross product. -/
theorem eq_cross_of_volume (ha : a.IsUnit) (hb : b.IsUnit) (hc : c.IsUnit) (hbc : b.dot c = 0)
    (hvolume : volume a b c = 1) : a = b.cross c := by
  -- The square of the distance of the two is zero.
  have hcross : (b.cross c).lengthSq = 1 := by
    have hlagrange : (b.cross c).lengthSq = b.lengthSq * c.lengthSq - b.dot c * b.dot c := by
      simp only [lengthSq_eq, dot_eq, cross]
      ring
    rw [hlagrange, hb, hc, hbc]
    ring
  have hgap : (a - b.cross c).lengthSq = 0 := by
    have hexpand : (a - b.cross c).lengthSq =
        a.lengthSq - 2 * volume a b c + (b.cross c).lengthSq := by
      simp only [volume, lengthSq_eq, dot_eq, sub_eq]
      ring
    rw [hexpand, ha, hcross, hvolume]
    ring
  exact eq_of_lengthSq_sub_eq_zero hgap

/-- Unit vectors at right angles are a frame if they are turned as the axes are. -/
theorem frame_of_volume_pos (ha : a.IsUnit) (hb : b.IsUnit) (hc : c.IsUnit) (hab : a.dot b = 0)
    (hbc : b.dot c = 0) (hca : c.dot a = 0) (hpos : 0 < volume a b c) : Frame a b c := by
  have hvolume : volume a b c = 1 := by
    have hsq := volume_mul_volume hab hbc hca
    rw [ha, hb, hc] at hsq
    nlinarith
  exact
    { fst_eq := eq_cross_of_volume ha hb hc hbc hvolume
      snd_eq := eq_cross_of_volume hb hc ha hca ((volume_rotate a b c).trans hvolume)
      trd_eq := eq_cross_of_volume hc ha hb hab
        ((volume_rotate b c a).trans ((volume_rotate a b c).trans hvolume))
      isUnit := ha }

end Vec3

/-! ## Rotations of frames -/

namespace Rotation

/-- The rotation takes the axes to the given vectors. -/
structure Turns (q : Rotation ℝ) (a b c : Vec3 ℝ) : Prop where
  xx : 4 * (q.x * q.x) = 1 + a.x - b.y - c.z
  yy : 4 * (q.y * q.y) = 1 - a.x + b.y - c.z
  zz : 4 * (q.z * q.z) = 1 - a.x - b.y + c.z
  xy : 4 * (q.x * q.y) = a.y + b.x
  xz : 4 * (q.x * q.z) = a.z + c.x
  yz : 4 * (q.y * q.z) = b.z + c.y
  wx : 4 * (q.w * q.x) = b.z - c.y
  wy : 4 * (q.w * q.y) = c.x - a.z
  wz : 4 * (q.w * q.z) = a.y - b.x

/-- Components that were divided by the greatest one have the product that they had with it. -/
theorem four_mul_of_pivot {f i u v p : ℝ} (hi : i * i * f = 1 / 4) (h : u * v = f * p) :
    4 * (u * i * (v * i)) = p := by
  linear_combination 4 * i * i * h + 4 * p * hi

/-- A root that is not zero divides one half to what has a quarter as the square with it. -/
theorem half_div_sqrt {f : ℝ} (hf : 0 < f) :
    0.5 / Scalar.sqrt f * (0.5 / Scalar.sqrt f) * f = 1 / 4 := by
  have hroot := Real.mul_self_sqrt hf.le
  have hne := (Real.sqrt_pos.2 hf).ne'
  change 0.5 / √f * (0.5 / √f) * f = 1 / 4
  rw [Scalar.half_eq]
  field_simp
  linear_combination -4 * hroot

/-- The rotation that is found for a frame takes the axes to it. -/
theorem turns_rotationOfAxes {a b c : Vec3 ℝ} (h : Vec3.Frame a b c) :
    (Matrix.rotationOfAxes a b c).Turns a b c := by
  obtain ⟨ha, hb, hc, hunit⟩ := h
  obtain ⟨ax, ay, az⟩ := a
  obtain ⟨bx, b_y, bz⟩ := b
  obtain ⟨cx, cy, cz⟩ := c
  simp only [Vec3.cross, Vec3.mk.injEq] at ha hb hc
  rw [Vec3.IsUnit, Vec3.lengthSq_eq] at hunit
  obtain ⟨hax, hay, haz⟩ := ha
  obtain ⟨hbx, hby, hbz⟩ := hb
  obtain ⟨hcx, hcy, hcz⟩ := hc
  dsimp only at hunit
  rw [Matrix.rotationOfAxes, Scalar.one_eq, Scalar.zero_eq]
  dsimp only
  split
  -- By the signs the divisor is at least one, and the products with the component that it belongs
  -- to are those of the others times it.
  · next hz =>
    split
    · next hd =>
      have hi := half_div_sqrt (by linarith : 0 < 1 - cz - (b_y - ax))
      constructor <;> refine four_mul_of_pivot hi ?_ <;> grind
    · next hd =>
      have hi := half_div_sqrt (by linarith : 0 < 1 - cz + (b_y - ax))
      constructor <;> refine four_mul_of_pivot hi ?_ <;> grind
  · next hz =>
    split
    · next hs =>
      have hi := half_div_sqrt (by linarith : 0 < 1 + cz - (b_y + ax))
      constructor <;> refine four_mul_of_pivot hi ?_ <;> grind
    · next hs =>
      have hi := half_div_sqrt (by linarith : 0 < 1 + cz + (b_y + ax))
      constructor <;> refine four_mul_of_pivot hi ?_ <;> grind

end Rotation

/-! ## Matrices -/

namespace Column

variable {a : Column ℝ}

/-- A multiple of a column in components. -/
theorem mul_eq (a : Column ℝ) (s : ℝ) : a * s = ⟨a.x * s, a.y * s, a.z * s, a.w * s⟩ := rfl

/-- The length of a column without a fourth number is that of its vector. -/
theorem length_mul_length (h : a.w = 0) : a.length * a.length = a.xyz.lengthSq := by
  have hsq : a.x * a.x + a.y * a.y + a.z * a.z + a.w * a.w = a.xyz.lengthSq := by
    rw [h, mul_zero, add_zero]
    rfl
  change √(a.x * a.x + a.y * a.y + a.z * a.z + a.w * a.w) * √_ = _
  rw [hsq]
  exact Real.mul_self_sqrt a.xyz.lengthSq_nonneg

/-- What was divided by a number is multiplied back by it. -/
theorem mul_of_div (h : a.w = 0) {s : ℝ} (hs : s ≠ 0) :
    (⟨(a.xyz * (1.0 / s)).x * s, (a.xyz * (1.0 / s)).y * s, (a.xyz * (1.0 / s)).z * s, 0⟩ :
      Column ℝ) = a := by
  have hback (x : ℝ) : x * (1.0 / s) * s = x := by
    rw [Scalar.one_eq, mul_assoc, one_div_mul_cancel hs, mul_one]
  change Column.mk (a.x * (1.0 / s) * s) (a.y * (1.0 / s) * s) (a.z * (1.0 / s) * s) 0 = a
  rw [hback, hback, hback, ← h]

end Column

namespace Matrix

/-- The last row is that of an affine map. -/
structure Affine (m : Matrix ℝ) : Prop where
  axisX_w : m.axisX.w = 0
  axisY_w : m.axisY.w = 0
  axisZ_w : m.axisZ.w = 0
  origin_w : m.origin.w = 1

/-- The images of the axes are at right angles, and none of them is without length. -/
structure Upright (m : Matrix ℝ) : Prop where
  dot_xy : m.axisX.xyz.dot m.axisY.xyz = 0
  dot_yz : m.axisY.xyz.dot m.axisZ.xyz = 0
  dot_zx : m.axisZ.xyz.dot m.axisX.xyz = 0
  axisX_pos : 0 < m.axisX.xyz.lengthSq
  axisY_pos : 0 < m.axisY.xyz.lengthSq
  axisZ_pos : 0 < m.axisZ.xyz.lengthSq

variable {m : Matrix ℝ}

/-- The determinant of an affine map is the volume of what its axes span. -/
theorem Affine.determinant_eq (h : m.Affine) :
    m.determinant = Vec3.volume m.axisX.xyz m.axisY.xyz m.axisZ.xyz := by
  simp only [determinant, h.axisX_w, h.axisY_w, h.axisZ_w, h.origin_w, Vec3.volume, Vec3.dot_eq,
    Vec3.cross, Column.xyz]
  ring

/-- The square of the determinant of an affine map with axes at right angles. -/
theorem Upright.determinant_mul_determinant (hup : m.Upright) (haffine : m.Affine) :
    m.determinant * m.determinant =
      m.axisX.xyz.lengthSq * m.axisY.xyz.lengthSq * m.axisZ.xyz.lengthSq := by
  rw [haffine.determinant_eq]
  exact Vec3.volume_mul_volume hup.dot_xy hup.dot_yz hup.dot_zx

/-- The determinant is not zero, and has its sign. -/
theorem Upright.signum_spec (hup : m.Upright) (haffine : m.Affine) :
    Scalar.signum m.determinant * Scalar.signum m.determinant = 1 ∧
      0 < m.determinant * Scalar.signum m.determinant := by
  have hsq := hup.determinant_mul_determinant haffine
  have hpos := mul_pos (mul_pos hup.axisX_pos hup.axisY_pos) hup.axisZ_pos
  have hsign : Scalar.signum m.determinant = if m.determinant < 0 then -1 else 1 :=
    Scalar.copySign_one _
  rw [hsign]
  split
  · exact ⟨by norm_num, by linarith⟩
  · next h =>
    have hne : m.determinant ≠ 0 := fun hzero => by
      rw [hzero, zero_mul] at hsq
      exact hpos.ne hsq
    rw [mul_one, mul_one]
    exact ⟨rfl, lt_of_le_of_ne (not_lt.1 h) hne.symm⟩

/-- A matrix that is put together from a rotation has the axes that this turns to, scaled. -/
theorem compose_eq_of_turns {q : Rotation ℝ} {a b c : Vec3 ℝ} (h : q.Turns a b c) (s o : Vec3 ℝ) :
    compose s q o = ⟨⟨a.x * s.x, a.y * s.x, a.z * s.x, 0⟩, ⟨b.x * s.y, b.y * s.y, b.z * s.y, 0⟩,
      ⟨c.x * s.z, c.y * s.z, c.z * s.z, 0⟩, ⟨o.x, o.y, o.z, 1⟩⟩ := by
  obtain ⟨hxx, hyy, hzz, hxy, hxz, hyz, hwx, hwy, hwz⟩ := h
  obtain ⟨x, y, z, w⟩ := q
  dsimp only at *
  simp only [compose, Column.mul_eq, Matrix.mk.injEq, Column.mk.injEq, Scalar.one_eq,
    Scalar.zero_eq, zero_mul, and_true]
  refine ⟨⟨?_, ?_, ?_⟩, ⟨?_, ?_, ?_⟩, ?_, ?_, ?_⟩
  · linear_combination -(s.x / 2) * (hyy + hzz)
  · linear_combination (s.x / 2) * (hxy + hwz)
  · linear_combination (s.x / 2) * (hxz - hwy)
  · linear_combination (s.y / 2) * (hxy - hwz)
  · linear_combination -(s.y / 2) * (hxx + hzz)
  · linear_combination (s.y / 2) * (hyz + hwx)
  · linear_combination (s.z / 2) * (hxz + hwy)
  · linear_combination (s.z / 2) * (hyz - hwx)
  · linear_combination -(s.z / 2) * (hxx + hyy)

end Matrix

/-- The three unit vectors that the rotation of a matrix is found for are a frame. -/
theorem Matrix.Upright.frame {m : Matrix ℝ} (hup : m.Upright) (haffine : m.Affine) {s t u : ℝ}
    (hs : s * s = m.axisX.xyz.lengthSq) (ht : t * t = m.axisY.xyz.lengthSq)
    (hu : u * u = m.axisZ.xyz.lengthSq) (hpos : 0 < m.determinant * (s * t * u)) :
    Vec3.Frame (m.axisX.xyz * (1.0 / s)) (m.axisY.xyz * (1.0 / t)) (m.axisZ.xyz * (1.0 / u)) := by
  refine Vec3.frame_of_volume_pos (Vec3.isUnit_mul_one_div hs hup.axisX_pos)
    (Vec3.isUnit_mul_one_div ht hup.axisY_pos) (Vec3.isUnit_mul_one_div hu hup.axisZ_pos)
    ?_ ?_ ?_ ?_
  · rw [Vec3.dot_mul_mul, hup.dot_xy, zero_mul]
  · rw [Vec3.dot_mul_mul, hup.dot_yz, zero_mul]
  · rw [Vec3.dot_mul_mul, hup.dot_zx, zero_mul]
  · have hne := Vec3.ne_zero_of_mul_self hs hup.axisX_pos
    have hne' := Vec3.ne_zero_of_mul_self ht hup.axisY_pos
    have hne'' := Vec3.ne_zero_of_mul_self hu hup.axisZ_pos
    have hinverse : m.determinant * (1 / s * (1 / t) * (1 / u)) =
        m.determinant * (s * t * u) / (s * t * u) ^ 2 := by
      field_simp
    rw [Vec3.volume_mul, ← haffine.determinant_eq, Scalar.one_eq, hinverse]
    exact div_pos hpos (by positivity)

/-- An affine matrix with axes at right angles is put together again from what it is taken apart
    into. -/
theorem Transform.matrix_ofMatrix {m : Matrix ℝ} (haffine : m.Affine) (hup : m.Upright) :
    (Transform.ofMatrix m).matrix = m := by
  obtain ⟨hsign, hdet⟩ := hup.signum_spec haffine
  have hx := Column.length_mul_length haffine.axisX_w
  have hy := Column.length_mul_length haffine.axisY_w
  have hz := Column.length_mul_length haffine.axisZ_w
  have hpos {a : Column ℝ} (h : a.length * a.length = a.xyz.lengthSq) (ha : 0 < a.xyz.lengthSq) :
      0 < a.length :=
    lt_of_le_of_ne (Real.sqrt_nonneg _) (Vec3.ne_zero_of_mul_self h ha).symm
  have hxpos := hpos hx hup.axisX_pos
  have hypos := hpos hy hup.axisY_pos
  have hzpos := hpos hz hup.axisZ_pos
  have hsx : m.axisX.length * Scalar.signum m.determinant *
      (m.axisX.length * Scalar.signum m.determinant) = m.axisX.xyz.lengthSq := by
    linear_combination (m.axisX.length * m.axisX.length) * hsign + hx
  have hne := Vec3.ne_zero_of_mul_self hsx hup.axisX_pos
  have hframe := hup.frame haffine hsx hy hz <| by
    have := mul_pos (mul_pos (mul_pos hxpos hypos) hzpos) hdet
    linarith
  have horigin : (⟨m.origin.x, m.origin.y, m.origin.z, 1⟩ : Column ℝ) = m.origin := by
    rw [← haffine.origin_w]
  have hcolumns := congr (congr (congr (congrArg Matrix.mk
    (Column.mul_of_div haffine.axisX_w hne)) (Column.mul_of_div haffine.axisY_w hypos.ne'))
    (Column.mul_of_div haffine.axisZ_w hzpos.ne')) horigin
  exact (Matrix.compose_eq_of_turns (Rotation.turns_rotationOfAxes hframe) _ _).trans hcolumns

end Solids
