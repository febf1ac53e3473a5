import Mathlib
import Solids.Precision

/-!
# Narrowing what was widened

A number of single precision is the same after it was widened and narrowed again
(`Binary.narrow_widen`).

A finite number has many parts, since its mantissa may be shifted up while the exponent goes down.
One of them suits a format (`Binary.Suits`): the one whose exponent the format would choose. Numbers
are unpacked to that one, and it is what they are rounded to from wherever their mantissa was
shifted (`Binary.round_shiftLeft`). What suits single precision suits double precision after a
shift, which widening therefore is and which narrowing takes back.
-/

namespace Solids.Binary

open Float.Model Float.Model.UnpackedFloat

/-- The exponent is that which the format would choose, and not too great for it. -/
def Suits (format : Format) : UnpackedFloat → Prop
  | .finite _ m e _ => format.targetExponent (totalExponent m e) = e ∧
      totalExponent m e ≤ 2 ^ (format.exponentBits - 1)
  | _ => True

/-! ## Rounding -/

/-- The place of the leading digit stays where it is if the mantissa is shifted and the exponent
    makes up for it. -/
theorem totalExponent_shiftLeft {m : Nat} (hm : 0 < m) (e : Int) (k : Nat) :
    totalExponent (m <<< k) (e - k) = totalExponent m e := by
  have hlog : (m <<< k).log2 = m.log2 + k := by
    rw [Nat.shiftLeft_eq, Nat.log2_eq_iff (Nat.mul_pos hm (Nat.two_pow_pos k)).ne', Nat.pow_add,
      Nat.add_right_comm, Nat.pow_add]
    exact ⟨Nat.mul_le_mul_right _ (Nat.log2_self_le hm.ne'),
      Nat.mul_lt_mul_of_pos_right Nat.lt_log2_self (Nat.two_pow_pos k)⟩
  rw [totalExponent, totalExponent, hlog]
  omega

/-- A shift back leaves nothing to round. -/
theorem shiftRight_shiftLeft (m k : Nat) :
    (⟨m <<< k, false, false⟩ : ExtendedMantissa) >>> k = ⟨m, false, false⟩ := by
  induction k generalizing m with
  | zero => rfl
  | succ k ih =>
    change ((⟨m <<< (k + 1), false, false⟩ : ExtendedMantissa) >>> k).shiftRightOne = _
    rw [Nat.add_comm, Nat.shiftLeft_add, ih, ExtendedMantissa.shiftRightOne]
    simp [Nat.shiftLeft_eq]

section Rounding

variable {format : Format} {s : Sign} {m : Nat} {e : Int} {hm : 0 < m}

/-- The shift to the exponent that suits the format ends there. -/
theorem shiftToTargetExponent_shiftLeft (h : Suits format (.finite s m e hm)) (k : Nat) :
    shiftToTargetExponent format (m <<< k) (e - k) .exact = (⟨m, false, false⟩, e) := by
  have hamount : (e - (e - k)).toNat = k := by omega
  rw [shiftToTargetExponent, totalExponent_shiftLeft hm, h.1, shiftToExponent, hamount]
  exact Prod.ext (shiftRight_shiftLeft m k) (by omega)

/-- Rounding by right shifts finds the parts that suit the format. -/
theorem roundWithAccuracy_shiftLeft (h : Suits format (.finite s m e hm)) (k : Nat) :
    roundWithAccuracy format s (m <<< k) (e - k) .exact = .finite s m e hm := by
  have hexact : (⟨m, false, false⟩ : ExtendedMantissa).roundedMantissa = m := rfl
  -- There is nothing left for the second shift, which follows the rounding of the mantissa.
  have hagain := shiftToTargetExponent_shiftLeft h 0
  rw [Nat.shiftLeft_zero, Int.natCast_zero, Int.sub_zero] at hagain
  simp only [roundWithAccuracy, shiftToTargetExponent_shiftLeft h, hexact, hagain]
  exact dif_neg hm.ne'

/-- Rounding finds the parts that suit the format, from wherever the mantissa was shifted up. -/
theorem round_shiftLeft (h : Suits format (.finite s m e hm)) (k : Nat) :
    UnpackedFloat.round format s (m <<< k) (e - k) = .finite s m e hm := by
  have hamount : (e - k - e).toNat = 0 := by omega
  simp only [UnpackedFloat.round, totalExponent_shiftLeft hm, h.1, decreaseExponent, hamount,
    Nat.shiftLeft_zero, Int.natCast_zero, Int.sub_zero]
  exact roundWithAccuracy_shiftLeft h k

end Rounding

/-! ## Single precision -/

/-- The exponent that single precision would choose. -/
theorem targetExponent_single (t : Int) :
    Format.binary32.targetExponent t = max (t - 24) (-149) := rfl

/-- The exponent that double precision would choose. -/
theorem targetExponent_double (t : Int) :
    Format.binary64.targetExponent t = max (t - 53) (-1074) := rfl

/-- The mantissa of a normal number has a digit in front that is not stored. -/
theorem toNat_one_append {n : Nat} (b : BitVec n) : (1#1 ++ b).toNat = 2 ^ n + b.toNat := by
  have hsum := Nat.two_pow_add_eq_or_of_lt b.isLt 1
  have hone : (1#1).toNat = 1 := rfl
  rw [BitVec.toNat_append, hone, Nat.shiftLeft_eq, Nat.mul_comm, ← hsum, Nat.mul_one]

/-- That digit is the leading one. -/
theorem log2_one_append {n : Nat} (b : BitVec n) : (1#1 ++ b).toNat.log2 = n := by
  have hlt := b.isLt
  rw [toNat_one_append, Nat.log2_eq_iff (by omega), Nat.pow_succ]
  omega

/-- The parts of a number of single precision suit it. -/
theorem suits_unpack (b : BitVec 32) :
    Suits .binary32 (UnpackedFloat.unpack .binary32 b) := by
  have hbias : (Format.binary32.exponentBias : Int) = 127 := by decide
  simp only [UnpackedFloat.unpack, hbias]
  split
  · split <;> trivial
  · next hfinite =>
    have hmantissa : (@unpackMantissa .binary32 b).toNat < 2 ^ 23 := BitVec.isLt _
    split
    · split
      · trivial
      · next hexponent hzero =>
        -- A subnormal number has the least exponent, and room for what its mantissa has less.
        have hne : (@unpackMantissa .binary32 b).toNat ≠ 0 :=
          fun h => hzero (BitVec.eq_of_toNat_eq h)
        have hlog := (Nat.log2_lt hne).2 hmantissa
        rw [Suits, targetExponent_single, totalExponent, hexponent, BitVec.toNat_ofNat]
        change _ ∧ _ ≤ (2 : Int) ^ 7
        omega
    · next hexponent =>
      have hpos : (@unpackExponent .binary32 b).toNat ≠ 0 :=
        fun h => hexponent (BitVec.eq_of_toNat_eq h)
      have hlt : (@unpackExponent .binary32 b).toNat < 2 ^ 8 := BitVec.isLt _
      have hmax : (@unpackExponent .binary32 b).toNat ≠ 255 :=
        fun h => hfinite (BitVec.eq_of_toNat_eq h)
      rw [Suits, targetExponent_single, totalExponent, log2_one_append]
      change max ((23 : Int) + 1 + (_ - (127 + 23)) - 24) (-149) = _ - (127 + 23) ∧
        (23 : Int) + 1 + (_ - (127 + 23)) ≤ 2 ^ 7
      omega

/-- What suits single precision is shifted to what suits double precision when it is rounded to
    that. -/
theorem rounded_double {s : Sign} {m : Nat} {e : Int} {hm : 0 < m}
    (h : Suits .binary32 (.finite s m e hm)) :
    ∃ (k : Nat) (hm' : 0 < m <<< k),
      rounded .binary64 (.finite s m e hm) = .finite s (m <<< k) (e - k) hm' ∧
      Suits .binary64 (.finite s (m <<< k) (e - k) hm') := by
  obtain ⟨htarget, hmax⟩ := h
  rw [targetExponent_single] at htarget
  change _ ≤ (2 : Int) ^ 7 at hmax
  let k := (e - Format.binary64.targetExponent (totalExponent m e)).toNat
  have hm' : 0 < m <<< k := by
    rw [Nat.shiftLeft_eq]
    exact Nat.mul_pos hm (Nat.two_pow_pos k)
  have hsuits : Suits .binary64 (.finite s (m <<< k) (e - k) hm') := by
    rw [Suits, totalExponent_shiftLeft hm, targetExponent_double]
    change _ ∧ _ ≤ (2 : Int) ^ 10
    simp only [k, targetExponent_double]
    omega
  have hround := roundWithAccuracy_shiftLeft hsuits 0
  rw [Nat.shiftLeft_zero, Int.natCast_zero, Int.sub_zero] at hround
  exact ⟨k, hm', hround, hsuits⟩

/-! ## Double precision -/

/-- The parts of a normal number are found again. -/
theorem unpack_packComponents_normal (s : Sign) {m n : Nat} (hm : 0 < m)
    (hlog : m.log2 = 52) (hpos : 0 < n) (hmax : n < 2047) :
    UnpackedFloat.unpack .binary64
      (packComponents .binary64 s (BitVec.ofNat 11 n) (BitVec.ofNat 52 m)) =
        .finite s m (n - 1075) hm := by
  have hexponent : (BitVec.ofNat 11 n).toNat = n := by
    rw [BitVec.toNat_ofNat, Nat.mod_eq_of_lt (by omega)]
  have hmantissa : (1#1 ++ BitVec.ofNat 52 m).toNat = m := by
    obtain ⟨hlow, hhigh⟩ := (Nat.log2_eq_iff hm.ne').1 hlog
    rw [toNat_one_append, BitVec.toNat_ofNat]
    omega
  have hfinite : BitVec.ofNat 11 n ≠ -1#11 := by
    intro h
    rw [h] at hexponent
    exact hmax.ne hexponent.symm
  have hnormal : BitVec.ofNat 11 n ≠ 0#11 := by
    intro h
    rw [h] at hexponent
    exact hpos.ne hexponent
  simp only [UnpackedFloat.unpack, unpackMantissa_packComponents, unpackExponent_packComponents,
    unpackSign_packComponents, Sign.ofBitVec_toBitVec, if_neg hfinite, if_neg hnormal, hexponent,
    hmantissa]
  rfl

/-- The parts of a subnormal number are found again. -/
theorem unpack_packComponents_subnormal (s : Sign) {m : Nat} (hm : 0 < m) (hlog : m.log2 < 52) :
    UnpackedFloat.unpack .binary64 (packComponents .binary64 s 0#11 (BitVec.ofNat 52 m)) =
      .finite s m (-1074) hm := by
  have hmantissa : (BitVec.ofNat 52 m).toNat = m := by
    rw [BitVec.toNat_ofNat, Nat.mod_eq_of_lt ((Nat.log2_lt hm.ne').1 hlog)]
  have hfinite : 0#11 ≠ -1#11 := by decide
  have hnonzero : BitVec.ofNat 52 m ≠ 0#52 := by
    intro h
    rw [h] at hmantissa
    exact hm.ne hmantissa
  simp only [UnpackedFloat.unpack, unpackMantissa_packComponents, unpackExponent_packComponents,
    unpackSign_packComponents, Sign.ofBitVec_toBitVec, if_neg hfinite, if_true, dif_neg hnonzero,
    hmantissa]
  rfl

/-- Parts that suit double precision are found again when they are put together. -/
theorem unpack_pack {a : UnpackedFloat} (h : Suits .binary64 a) :
    UnpackedFloat.unpack .binary64 (a.pack .binary64) = a := by
  cases a with
  | notANumber => exact unpack_packedNaN
  | infinity s => cases s <;> rfl
  | zero s => exact unpack_packedZero
  | finite s m e hm =>
    obtain ⟨htarget, hmax⟩ := h
    rw [targetExponent_double, totalExponent] at htarget
    change (m.log2 : Int) + 1 + e ≤ 2 ^ 10 at hmax
    have hroom : ¬2 ^ 11 ≤ (e + 1023 + 52).toNat + 1 := by omega
    change UnpackedFloat.unpack .binary64 (if 2 ^ 11 ≤ (e + 1023 + 52).toNat + 1 then _ else
      if m.log2 + 1 = 53 then _ else _) = _
    rw [if_neg hroom]
    split
    · have hpos : 0 < (e + 1023 + 52).toNat := by omega
      have hlt : (e + 1023 + 52).toNat < 2047 := by omega
      have hn : ((e + 1023 + 52).toNat : Int) - 1075 = e := by omega
      have hfound := unpack_packComponents_normal s hm (by omega) hpos hlt
      rwa [hn] at hfound
    · obtain rfl : e = -1074 := by omega
      exact unpack_packComponents_subnormal s hm (by omega)

/-! ## There and back -/

/-- The parts of a number that is widened are its own, rounded. -/
theorem suits_rounded (x : Float32) : Suits .binary64 (rounded .binary64 x.toModel.unpack) := by
  have hsuits : Suits .binary32 x.toModel.unpack := suits_unpack _
  cases hx : x.toModel.unpack with
  | notANumber | infinity | zero => trivial
  | finite s m e hm =>
    rw [hx] at hsuits
    obtain ⟨k, hm', heq, hsuits'⟩ := rounded_double hsuits
    rwa [heq]

/-- The parts of a number that is widened. -/
theorem unpack_widen (x : Float32) :
    (widen x).toModel.unpack = rounded .binary64 x.toModel.unpack :=
  unpack_pack (suits_rounded x)

/-- A number of single precision that is widened and narrowed again is what it was. -/
theorem narrow_widen (x : Float32) : narrow (widen x) = x := by
  have hsuits : Suits .binary32 x.toModel.unpack := suits_unpack _
  have hparts : rounded .binary32 (widen x).toModel.unpack = x.toModel.unpack := by
    rw [unpack_widen]
    cases hx : x.toModel.unpack with
    | notANumber | infinity | zero => rfl
    | finite s m e hm =>
      rw [hx] at hsuits
      obtain ⟨k, hm', heq, -⟩ := rounded_double hsuits
      rw [heq]
      exact round_shiftLeft hsuits k
  rw [narrow, hparts, ← Float32.toBits_inj, ← UInt32.toBitVec_inj]
  exact pack_unpack_of_valid x.toModel.valid

/-- A number is finite when it is widened if it was before. -/
theorem isFinite_widen (x : Float32) : (widen x).isFinite = x.isFinite := by
  change (widen x).toModel.unpack.isFinite = x.toModel.unpack.isFinite
  have hsuits : Suits .binary32 x.toModel.unpack := suits_unpack _
  rw [unpack_widen]
  cases hx : x.toModel.unpack with
  | notANumber | infinity | zero => rfl
  | finite s m e hm =>
    rw [hx] at hsuits
    obtain ⟨k, hm', heq, -⟩ := rounded_double hsuits
    rw [heq]
    rfl

end Solids.Binary
