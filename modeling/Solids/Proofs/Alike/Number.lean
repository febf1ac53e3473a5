import Mathlib
import Solids.Proofs.Key.Alike

/-!
# Arithmetic of alike numbers

Numbers are alike if they are one number, or both are zeros of any sign. Addition, subtraction and
multiplication make alike numbers of such, comparisons do not tell them apart, and a square and a
magnitude have no sign to forget. These are the laws of `Scalar.SignBlind`, and binary
floating-point numbers have them (`Binary.signBlind`). There is none for division: `1 / 0` and
`1 / -0` are far apart.

A sum from `0.0` on even is the same number for alike summands. That is because only the sum of two
negative zeros is a negative zero (`Binary.inRange_add`): what is not one *absorbs* zeros of any
sign (`Scalar.Absorbs`), and stays such whatever is added to it.
-/

namespace Solids

/-- Zeros of any sign may be added alike. -/
def Scalar.Absorbs {α : Type} [Scalar α] (x : α) : Prop := ∀ y y', Alike y y' → x + y = x + y'

/-- Arithmetic that does not look at the sign of a zero, as long as it does not divide by one. -/
class Scalar.SignBlind (α : Type) [Scalar α] : Prop where
  add_alike {x x' y y' : α} : Alike x x' → Alike y y' → Alike (x + y) (x' + y')
  sub_alike {x x' y y' : α} : Alike x x' → Alike y y' → Alike (x - y) (x' - y')
  mul_alike {x x' y y' : α} : Alike x x' → Alike y y' → Alike (x * y) (x' * y')
  mul_self_eq {x x' : α} : Alike x x' → x * x = x' * x'
  abs_eq {x x' : α} : Alike x x' → abs x = abs x'
  lt_iff {x x' y y' : α} : Alike x x' → Alike y y' → (x < y ↔ x' < y')
  le_iff {x x' y y' : α} : Alike x x' → Alike y y' → (x ≤ y ↔ x' ≤ y')
  beq_eq {x x' y y' : α} : Alike x x' → Alike y y' → (x == y) = (x' == y')
  absorbs_zero : Absorbs (0.0 : α)
  absorbs_add {x : α} (y : α) : Absorbs x → Absorbs (x + y)

namespace Binary

open Float.Model Float.Model.UnpackedFloat

/-! ## Numbers taken apart -/

/-- The number as sign, mantissa and exponent, or what else it is. -/
def parts (x : Float) : UnpackedFloat := x.toModel.unpack

/-- The number that is put together from parts. -/
def ofParts (a : UnpackedFloat) : Float := ⟨.pack a⟩

/-- Numbers of the same parts are the same. -/
theorem parts_inj {x y : Float} : parts x = parts y ↔ x = y := by
  obtain ⟨⟨b, hb⟩⟩ := x
  obtain ⟨⟨c, hc⟩⟩ := y
  simp only [parts, Float.Model.unpack, unpack_inj_of_valid hb hc, Float.ofModel.injEq,
    Float.Model.mk.injEq]
  exact UInt64.toBitVec_inj

/-- The parts of a zero. -/
theorem parts_ofParts_zero (s : Sign) : parts (ofParts (.zero s)) = .zero s := by
  cases s <;> rfl

/-- What is the same, or a zero in either case. -/
inductive Near : UnpackedFloat → UnpackedFloat → Prop
  | refl (a : UnpackedFloat) : Near a a
  | zeros (s t : Sign) : Near (.zero s) (.zero t)

/-- A number compares equal to zero exactly if it is a zero of either sign. -/
theorem beq_zero_iff {x : Float} : x == 0.0 ↔ ∃ s, parts x = .zero s := by
  change UnpackedFloat.beq (parts x) (.zero .positive) = true ↔ _
  cases parts x with
  | infinity s => cases s <;> simp [UnpackedFloat.beq, UnpackedFloat.compare]
  | notANumber => simp [UnpackedFloat.beq, UnpackedFloat.compare]
  | zero s => simp [UnpackedFloat.beq, UnpackedFloat.compare]
  | finite s m e hm => cases s <;> simp [UnpackedFloat.beq, UnpackedFloat.compare]

/-- The pattern of what is no zero has all bits of it. -/
theorem normalBits_eq_toBits {x : Float} (h : ¬∃ s, parts x = .zero s) :
    normalBits x = x.toBits := by
  rw [normalBits, if_neg (mt beq_zero_iff.1 h), Float.isNaN_eq_decide_eq_nan]
  split
  · next hnan =>
    rw [of_decide_eq_true hnan]
    rfl
  · rfl

/-- The pattern of a zero is zero, and that of no other number. -/
theorem normalBits_eq_zero_iff {x : Float} : normalBits x = 0 ↔ ∃ s, parts x = .zero s := by
  constructor
  · intro h
    by_contra hx
    rw [normalBits_eq_toBits hx] at h
    obtain rfl : x = 0.0 := Float.toBits_inj.1 h
    exact hx ⟨.positive, rfl⟩
  · exact fun h => if_pos (beq_zero_iff.2 h)

/-- Numbers are alike if their parts are the same or those of zeros. -/
theorem alike_iff {x y : Float} : Scalar.Alike x y ↔ Near (parts x) (parts y) := by
  change normalBits x = normalBits y ↔ _
  constructor
  · intro h
    by_cases hx : ∃ s, parts x = .zero s
    · obtain ⟨t, ht⟩ := normalBits_eq_zero_iff.1 (h ▸ normalBits_eq_zero_iff.2 hx)
      obtain ⟨s, hs⟩ := hx
      rw [hs, ht]
      exact .zeros s t
    · have hy : ¬∃ s, parts y = .zero s := fun hy =>
        hx (normalBits_eq_zero_iff.1 (h ▸ normalBits_eq_zero_iff.2 hy))
      rw [normalBits_eq_toBits hx, normalBits_eq_toBits hy, Float.toBits_inj] at h
      rw [h]
      exact .refl _
  · intro h
    generalize ha : parts x = a at h
    generalize hb : parts y = b at h
    cases h with
    | refl => rw [parts_inj.1 (ha.trans hb.symm)]
    | zeros s t => rw [normalBits_eq_zero_iff.2 ⟨s, ha⟩, normalBits_eq_zero_iff.2 ⟨t, hb⟩]

/-- What is put together from the same or from zeros is alike. -/
theorem alike_ofParts {a b : UnpackedFloat} (h : Near a b) :
    Scalar.Alike (ofParts a) (ofParts b) := by
  cases h with
  | refl => rfl
  | zeros s t =>
    rw [alike_iff, parts_ofParts_zero, parts_ofParts_zero]
    exact .zeros s t

/-! ## Operations -/

section Operations

variable {a a' b b' : UnpackedFloat}

/-- What is near to the same is near. -/
theorem Near.trans {c : UnpackedFloat} (h : Near a b) (h' : Near b c) : Near a c := by
  cases h with
  | refl => exact h'
  | zeros s t =>
    cases h' with
    | refl => exact .zeros s t
    | zeros _ u => exact .zeros s u

/-- An operation that hardly looks at the sign of a zero on either side makes what is near of what
    is. -/
theorem Near.map₂ {f : UnpackedFloat → UnpackedFloat → UnpackedFloat}
    (hleft : ∀ s t b, Near (f (.zero s) b) (f (.zero t) b))
    (hright : ∀ a s t, Near (f a (.zero s)) (f a (.zero t)))
    (ha : Near a a') (hb : Near b b') : Near (f a b) (f a' b') := by
  have hstep : Near (f a b) (f a' b) := by
    cases ha with
    | refl => exact .refl _
    | zeros s t => exact hleft s t b
  refine hstep.trans ?_
  cases hb with
  | refl => exact .refl _
  | zeros s t => exact hright a' s t

/-- In a sum the sign of a zero is only seen in a zero. -/
theorem near_add (ha : Near a a') (hb : Near b b') :
    Near (add .binary64 a b) (add .binary64 a' b') := by
  refine Near.map₂ (fun s t b => ?_) (fun a s t => ?_) ha hb
  · cases b with
    | zero r => cases s <;> cases t <;> cases r <;> exact .zeros _ _
    | infinity | notANumber | finite => exact .refl _
  · cases a with
    | zero r => cases r <;> cases s <;> cases t <;> exact .zeros _ _
    | infinity | notANumber | finite => exact .refl _

/-- In a difference the sign of a zero is only seen in a zero. -/
theorem near_sub (ha : Near a a') (hb : Near b b') :
    Near (sub .binary64 a b) (sub .binary64 a' b') := by
  refine Near.map₂ (fun s t b => ?_) (fun a s t => ?_) ha hb
  · cases b with
    | zero r => cases s <;> cases t <;> cases r <;> exact .zeros _ _
    | infinity | notANumber | finite => exact .refl _
  · cases a with
    | zero r => cases r <;> cases s <;> cases t <;> exact .zeros _ _
    | infinity | notANumber | finite => exact .refl _

/-- In a product the sign of a zero is only seen in a zero. -/
theorem near_mul (ha : Near a a') (hb : Near b b') :
    Near (mul .binary64 a b) (mul .binary64 a' b') := by
  refine Near.map₂ (fun s t b => ?_) (fun a s t => ?_) ha hb
  · cases b with
    | zero | finite => exact .zeros _ _
    | infinity | notANumber => exact .refl _
  · cases a with
    | zero | finite => exact .zeros _ _
    | infinity | notANumber => exact .refl _

/-- The square of a zero has no sign. -/
theorem mul_self_eq_of_near (ha : Near a a') : mul .binary64 a a = mul .binary64 a' a' := by
  cases ha with
  | refl => rfl
  | zeros s t => cases s <;> cases t <;> rfl

/-- The magnitude of a zero has no sign. -/
theorem abs_eq_of_near (ha : Near a a') : a.abs = a'.abs := by
  cases ha <;> rfl

/-- A comparison does not see the sign of a zero. -/
theorem compare_eq_of_near (ha : Near a a') (hb : Near b b') : a.compare b = a'.compare b' := by
  have hstep : a.compare b = a'.compare b := by
    cases ha with
    | refl => rfl
    | zeros s t =>
      cases b with
      | finite r | infinity r => cases r <;> rfl
      | zero | notANumber => rfl
  rw [hstep]
  cases hb with
  | refl => rfl
  | zeros s t =>
    cases a' with
    | finite r | infinity r => cases r <;> rfl
    | zero | notANumber => rfl

end Operations

/-! ## Sums that are a negative zero -/

section Rounding

/-- A shift to the right divides the mantissa. -/
theorem mantissa_shiftRight (em : ExtendedMantissa) (k : Nat) :
    (em >>> k).mantissa = em.mantissa / 2 ^ k := by
  induction k with
  | zero => exact (Nat.div_one _).symm
  | succ k ih =>
    change (em >>> k).shiftRightOne.mantissa = _
    rw [ExtendedMantissa.shiftRightOne, ih, Nat.div_div_eq_div_mul, Nat.pow_succ]

/-- How exact a mantissa is does not change it. -/
theorem mantissa_ofMantissaAndAccuracy (m : Nat) (acc : Accuracy) :
    (ExtendedMantissa.ofMantissaAndAccuracy m acc).mantissa = m := by
  rcases acc with _ | (_ | _ | _) <;> rfl

/-- A mantissa is not rounded down. -/
theorem le_roundedMantissa (em : ExtendedMantissa) : em.mantissa ≤ em.roundedMantissa := by
  rw [ExtendedMantissa.roundedMantissa]
  rcases em.accuracy with _ | (_ | _ | _)
  · exact Nat.le_refl _
  · exact Nat.le_refl _
  · exact Nat.le_add_right _ _
  · exact Nat.le_add_right _ _

/-- The least exponent. -/
theorem minExponent_eq : Format.binary64.minExponent = -1074 := by decide

/-- A positive mantissa whose exponent is not below the least is shifted to one that is positive and
    has no more bits than there is room for, and the exponent is not below the least then. -/
theorem shiftToTargetExponent_bounds {m : Nat} {e : Int} (acc : Accuracy) (hm : 0 < m)
    (he : -1074 ≤ e) :
    0 < (shiftToTargetExponent .binary64 m e acc).1.mantissa ∧
      (shiftToTargetExponent .binary64 m e acc).1.mantissa < 2 ^ 53 ∧
      -1074 ≤ (shiftToTargetExponent .binary64 m e acc).2 := by
  have hshift : (Format.binary64.targetExponent (totalExponent m e) - e).toNat = m.log2 - 52 := by
    rw [Format.targetExponent, minExponent_eq, totalExponent]
    change (max (m.log2 + 1 + e - 53) (-1074) - e).toNat = _
    omega
  have hlow : 2 ^ m.log2 ≤ m := Nat.log2_self_le hm.ne'
  have hhigh : m < 2 ^ (m.log2 + 1) := Nat.lt_log2_self
  simp only [shiftToTargetExponent, shiftToExponent, mantissa_shiftRight,
    mantissa_ofMantissaAndAccuracy, hshift]
  refine ⟨Nat.div_pos ?_ (Nat.two_pow_pos _), ?_, by omega⟩
  · exact (Nat.pow_le_pow_right Nat.two_pos (Nat.sub_le _ _)).trans hlow
  · rw [Nat.div_lt_iff_lt_mul (Nat.two_pow_pos _), ← Nat.pow_add]
    exact hhigh.trans_le (Nat.pow_le_pow_right Nat.two_pos (by omega))

/-- What is rounded from a positive mantissa whose exponent is not below the least is no zero. -/
theorem exists_roundWithAccuracy_eq {m : Nat} {e : Int} (s : Sign) (acc : Accuracy) (hm : 0 < m)
    (he : -1074 ≤ e) :
    ∃ m' e' hm', roundWithAccuracy .binary64 s m e acc = .finite s m' e' hm' ∧ m' < 2 ^ 53 ∧
      -1074 ≤ e' := by
  obtain ⟨hpos, -, he⟩ := shiftToTargetExponent_bounds acc hm he
  -- What is rounded up may need a second shift, which leaves no more to round.
  obtain ⟨hpos, hbits, he⟩ :=
    shiftToTargetExponent_bounds .exact (hpos.trans_le (le_roundedMantissa _)) he
  exact ⟨_, _, hpos, dif_neg hpos.ne', hbits, he⟩

/-- The same where the exponent may be brought down first. -/
theorem exists_round_eq {m : Nat} {e : Int} (s : Sign) (hm : 0 < m) (he : -1074 ≤ e) :
    ∃ m' e' hm', UnpackedFloat.round .binary64 s m e = .finite s m' e' hm' ∧ m' < 2 ^ 53 ∧
      -1074 ≤ e' := by
  refine exists_roundWithAccuracy_eq s .exact ?_ ?_
  · rw [Nat.shiftLeft_eq]
    exact Nat.mul_pos hm (Nat.two_pow_pos _)
  · rw [Format.targetExponent, minExponent_eq]
    omega

/-- A number of at most the bits there is room for, with an exponent not below the least. -/
def InRange : UnpackedFloat → Prop
  | .finite _ m e _ => m < 2 ^ 53 ∧ -1074 ≤ e
  | _ => True

/-- The parts of a number are in range. -/
theorem inRange_parts (x : Float) : InRange (parts x) := by
  have hbias : (Format.binary64.exponentBias : Int) = 1023 := by decide
  simp only [parts, Float.Model.unpack, UnpackedFloat.unpack, hbias]
  split
  · split <;> trivial
  · split
    · split
      · trivial
      · refine ⟨(BitVec.isLt _).trans (by decide), ?_⟩
        omega
    · next hexponent =>
      refine ⟨BitVec.isLt _, ?_⟩
      have hpos := Nat.pos_of_ne_zero fun h => hexponent (BitVec.eq_of_toNat_eq h)
      omega

/-- What is in range and no negative zero does not become one when it is put together. -/
theorem parts_ofParts_ne {a : UnpackedFloat} (hrange : InRange a) (ha : a ≠ .zero .negative) :
    parts (ofParts a) ≠ .zero .negative := by
  intro h
  replace h := (unpack_eq_zero_iff_of_valid valid_pack).1 h
  cases a with
  | notANumber => exact absurd h (by decide)
  | infinity s => cases s <;> exact absurd h (by decide)
  | zero s =>
    cases s with
    | negative => exact ha rfl
    | positive => exact absurd h (by decide)
  | finite s m e hm =>
    obtain ⟨hbits, he⟩ := hrange
    simp only [UnpackedFloat.pack, packedZero] at h
    split at h
    · have hexponent := congrArg unpackExponent h
      simp only [packedInfinity, unpackExponent_packComponents] at hexponent
      cases hexponent
    split at h
    · -- The exponent field of a normal number is that of a zero only below the least exponent.
      have hexponent := congrArg (fun b => (unpackExponent b).toNat) h
      simp only [unpackExponent_packComponents, BitVec.toNat_ofNat] at hexponent
      have hbiased : (e + 1023 + 52).toNat % 2 ^ 11 = 0 := hexponent
      have hfinite : ¬2 ^ 11 ≤ (e + 1023 + 52).toNat + 1 := by assumption
      omega
    · next hsubnormal =>
      have hmantissa := congrArg (fun b => (unpackMantissa b).toNat) h
      simp only [unpackMantissa_packComponents, BitVec.toNat_ofNat] at hmantissa
      have hlog : m.log2 < 52 := by
        have hlt : m.log2 < 53 := (Nat.log2_lt hm.ne').2 hbits
        have hne : m.log2 + 1 ≠ 53 := hsubnormal
        omega
      rw [Nat.mod_eq_of_lt ((Nat.log2_lt hm.ne').1 hlog)] at hmantissa
      exact hm.ne' hmantissa

/-- Only the sum of two negative zeros is one, and sums are in range. -/
theorem inRange_add {a b : UnpackedFloat} (ha : InRange a) (hb : InRange b)
    (hne : a ≠ .zero .negative) :
    InRange (UnpackedFloat.add .binary64 a b) ∧
      UnpackedFloat.add .binary64 a b ≠ .zero .negative := by
  cases a with
  | notANumber => exact ⟨trivial, nofun⟩
  | infinity s =>
    cases b with
    | infinity t => cases s <;> cases t <;> exact ⟨trivial, nofun⟩
    | notANumber | zero | finite => exact ⟨trivial, nofun⟩
  | zero s =>
    cases s with
    | negative => exact absurd rfl hne
    | positive =>
      cases b with
      | zero t => cases t <;> exact ⟨trivial, nofun⟩
      | finite => exact ⟨hb, nofun⟩
      | notANumber | infinity => exact ⟨trivial, nofun⟩
  | finite s m e hm =>
    cases b with
    | zero t => exact ⟨ha, nofun⟩
    | notANumber | infinity => exact ⟨trivial, nofun⟩
    | finite t m' e' hm' =>
      -- The mantissas are brought to the lesser exponent, and what is left of them is no zero.
      have hround {s : Sign} {m : Nat} (hm : 0 < m) :
          InRange (UnpackedFloat.round .binary64 s m (min e e')) ∧
            UnpackedFloat.round .binary64 s m (min e e') ≠ .zero .negative := by
        obtain ⟨m, e, hm, heq, hrange⟩ := exists_round_eq s hm (le_min ha.2 hb.2)
        exact heq ▸ ⟨hrange, nofun⟩
      simp only [UnpackedFloat.add, UnpackedFloat.normalize]
      split
      · next hsign =>
        exact hround (by have := Int.compare_eq_lt.1 hsign; omega)
      · exact ⟨trivial, nofun⟩
      · next hsign =>
        exact hround (by have := Int.compare_eq_gt.1 hsign; omega)

end Rounding

/-! ## The laws -/

/-- Numbers are in order if their parts compare so. -/
theorem lt_iff_compare {x y : Float} : x < y ↔ ((parts x).compare (parts y) == some .lt) = true :=
  decide_eq_true_iff

/-- Numbers are in order or equal if their parts compare so. -/
theorem le_iff_compare {x y : Float} :
    x ≤ y ↔ ((parts x).compare (parts y)).any (·.isLE) = true :=
  decide_eq_true_iff

/-- Only a negative zero does not take up zeros of any sign alike. -/
theorem absorbs_iff {x : Float} : Scalar.Absorbs x ↔ parts x ≠ .zero .negative := by
  constructor
  · intro h hx
    have hsum (s : Sign) : parts (x + ofParts (.zero s)) = .zero s := by
      change parts (ofParts (UnpackedFloat.add .binary64 (parts x) (parts (ofParts (.zero s))))) = _
      rw [hx, parts_ofParts_zero]
      cases s <;> rfl
    have heq := h _ _ (alike_ofParts (.zeros .positive .negative))
    cases (hsum .positive).symm.trans ((congrArg parts heq).trans (hsum .negative))
  · intro hx y y' hy
    refine congrArg ofParts ?_
    change UnpackedFloat.add .binary64 (parts x) (parts y) =
      UnpackedFloat.add .binary64 (parts x) (parts y')
    rw [alike_iff] at hy
    generalize parts x = a at hx
    generalize parts y = b at hy
    generalize parts y' = b' at hy
    cases hy with
    | refl => rfl
    | zeros s t =>
      cases a with
      | zero r =>
        cases r with
        | negative => exact absurd rfl hx
        | positive => cases s <;> cases t <;> rfl
      | notANumber | infinity | finite => rfl

instance signBlind : Scalar.SignBlind Float where
  add_alike hx hy := alike_ofParts (near_add (alike_iff.1 hx) (alike_iff.1 hy))
  sub_alike hx hy := alike_ofParts (near_sub (alike_iff.1 hx) (alike_iff.1 hy))
  mul_alike hx hy := alike_ofParts (near_mul (alike_iff.1 hx) (alike_iff.1 hy))
  mul_self_eq hx := congrArg ofParts (mul_self_eq_of_near (alike_iff.1 hx))
  abs_eq hx := congrArg ofParts (abs_eq_of_near (alike_iff.1 hx))
  lt_iff hx hy := by
    change (_ : Float) < _ ↔ (_ : Float) < _
    rw [lt_iff_compare, lt_iff_compare, compare_eq_of_near (alike_iff.1 hx) (alike_iff.1 hy)]
  le_iff hx hy := by
    change (_ : Float) ≤ _ ↔ (_ : Float) ≤ _
    rw [le_iff_compare, le_iff_compare, compare_eq_of_near (alike_iff.1 hx) (alike_iff.1 hy)]
  beq_eq hx hy := by
    change UnpackedFloat.beq (parts _) (parts _) = UnpackedFloat.beq (parts _) (parts _)
    rw [UnpackedFloat.beq, UnpackedFloat.beq,
      compare_eq_of_near (alike_iff.1 hx) (alike_iff.1 hy)]
  absorbs_zero := absorbs_iff.2 nofun
  absorbs_add {x} y hx := absorbs_iff.2 <| by
    obtain ⟨hrange, hne⟩ := inRange_add (inRange_parts x) (inRange_parts y) (absorbs_iff.1 hx)
    exact parts_ofParts_ne hrange hne

end Binary

end Solids
