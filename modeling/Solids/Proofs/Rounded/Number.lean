import Solids.Proofs.Alike.Number
import Solids.Tolerance

/-!
# Zeros under rounding

Rounded arithmetic satisfies few laws, but those of zero survive: what is added to a zero stays what
it was, a zero times any number is a zero, and so is the difference of equal numbers. They hold up
to the sign of a zero, and as long as there is a number at all, since an infinity times a zero is
none. Of a number that is another one in this sense it is said that it *stays* that
(`Scalar.Stays`), and of one that stays a zero that it vanishes (`Scalar.Vanishes`).

The laws are those of `Scalar.ZeroLaws`. Nothing is rounded where they apply, so binary
floating-point numbers have them (`Binary.zeroLaws`).
-/

namespace Solids

/-! ## The laws -/

namespace Scalar

variable {α : Type} [Scalar α]

/-- The number is like another one, unless it is none. -/
def Stays (x y : α) : Prop := isNaN x = true ∨ Alike x y

/-- The number is a zero, unless it is none. -/
def Vanishes (x : α) : Prop := Stays x 0.0

/-- Arithmetic in which a zero adds nothing and takes away everything, as long as there are
    numbers. -/
class ZeroLaws (α : Type) [Scalar α] : Prop where
  stays_trans {x y z : α} : Stays x y → Stays y z → Stays x z
  stays_of_beq {x y : α} : (x == y) = true → Stays x y
  stays_add {z : α} (x : α) : Vanishes z → Stays (x + z) x
  stays_zero_add {z : α} (x : α) : Vanishes z → Stays (z + x) x
  vanishes_sub {x y m : α} : Stays x m → Stays y m → Vanishes (x - y)
  vanishes_mul {z : α} (x : α) : Vanishes z → Vanishes (z * x)
  vanishes_mul_zero {z : α} (x : α) : Vanishes z → Vanishes (x * z)
  vanishes_div {z : α} (x : α) : Vanishes z → Vanishes (z / x)
  stays_mul (c : α) {x y : α} : Stays x y → Stays (c * x) (c * y)
  stays_neg {x y : α} : Stays x y → Stays (-x) (-y)
  vanishes_neg {z : α} : Vanishes z → Vanishes (-z)
  stays_neg_mul (c x : α) : Stays (-(c * x)) (-c * x)
  not_lt {x : α} : Vanishes x → ¬x < -planeTolerance ∧ ¬planeTolerance < x

/-- A number stays what it is. -/
theorem Stays.refl (x : α) : Stays x x := .inr rfl

end Scalar

namespace Binary

open Float.Model Float.Model.UnpackedFloat

/-! ## Parts -/

/-- The parts are near to others, unless they are of no number. -/
def Remains (a b : UnpackedFloat) : Prop := a = .notANumber ∨ Near a b

/-- The number of the parts of a number is the number. -/
theorem ofParts_parts (x : Float) : ofParts (parts x) = x := by
  rw [← Float.toBits_inj, ← UInt64.toBitVec_inj]
  exact pack_unpack_of_valid x.toModel.valid

/-- The parts of what is no number. -/
theorem parts_ofParts_notANumber : parts (ofParts .notANumber) = .notANumber := rfl

/-- A number stays another one if its parts remain the other's. -/
theorem stays_iff {x y : Float} : Scalar.Stays x y ↔ Remains (parts x) (parts y) := by
  rw [Scalar.Stays, Remains, alike_iff]
  exact or_congr_left isNaN_iff

/-- The parts are those of a zero, unless they are of no number. -/
def Null (a : UnpackedFloat) : Prop := a = .notANumber ∨ ∃ s, a = .zero s

/-- A number vanishes if its parts are those of a zero, or of no number. -/
theorem vanishes_iff {x : Float} : Scalar.Vanishes x ↔ Null (parts x) := by
  rw [Scalar.Vanishes, stays_iff, Remains, Null]
  refine or_congr_right ⟨fun h => ?_, fun ⟨s, hs⟩ => hs ▸ .zeros s .positive⟩
  change Near (parts x) (.zero .positive) at h
  generalize parts x = a at h
  cases h with
  | refl => exact ⟨_, rfl⟩
  | zeros s t => exact ⟨s, rfl⟩

/-- What is put together of parts that remain others' stays what is put together of these. -/
theorem stays_ofParts {a b : UnpackedFloat} (h : Remains a b) :
    Scalar.Stays (ofParts a) (ofParts b) := by
  rcases h with rfl | h
  · exact stays_iff.2 (.inl parts_ofParts_notANumber)
  · exact .inr (alike_ofParts h)

/-- What is put together of a zero or of no number vanishes. -/
theorem vanishes_ofParts {a : UnpackedFloat} (h : Null a) : Scalar.Vanishes (ofParts a) := by
  rw [vanishes_iff]
  rcases h with rfl | ⟨s, rfl⟩
  · exact .inl parts_ofParts_notANumber
  · exact .inr ⟨s, parts_ofParts_zero s⟩

/-- What remains of what remains of something remains of it. -/
theorem Remains.trans {a b c : UnpackedFloat} (h : Remains a b) (h' : Remains b c) :
    Remains a c := by
  rcases h with rfl | h
  · exact .inl rfl
  · rcases h' with rfl | h'
    · cases h
      exact .inl rfl
    · exact .inr (h.trans h')

/-! ## Signs -/

/-- The sign is found again where components are put together. -/
theorem unpack_packComponents_neg (s : Sign) (e : BitVec Format.binary64.exponentBits)
    (m : BitVec Format.binary64.mantissaBitsWithoutImplicit) :
    UnpackedFloat.unpack .binary64 (packComponents .binary64 (-s) e m) =
      (UnpackedFloat.unpack .binary64 (packComponents .binary64 s e m)).neg := by
  simp only [UnpackedFloat.unpack, unpackMantissa_packComponents, unpackExponent_packComponents,
    unpackSign_packComponents, Sign.ofBitVec_toBitVec]
  split_ifs <;> rfl

/-- Parts with the other sign make the number with the other sign. -/
theorem parts_ofParts_neg (a : UnpackedFloat) :
    parts (ofParts a.neg) = (parts (ofParts a)).neg := by
  have hparts (a : UnpackedFloat) :
      parts (ofParts a) = UnpackedFloat.unpack .binary64 (a.pack .binary64) := rfl
  rw [hparts, hparts]
  cases a with
  | notANumber => exact unpack_packedNaN.trans (congrArg UnpackedFloat.neg unpack_packedNaN).symm
  | infinity s => exact unpack_packComponents_neg s _ _
  | zero s => exact unpack_packComponents_neg s _ _
  | finite s m e hm =>
    simp only [UnpackedFloat.neg, UnpackedFloat.pack, packedInfinity]
    split_ifs <;> exact unpack_packComponents_neg s _ _

/-- The parts of the opposite number are those with the other sign. -/
theorem parts_neg (x : Float) : parts (-x) = (parts x).neg := by
  change parts (ofParts (parts x).neg) = _
  rw [parts_ofParts_neg, ofParts_parts]

/-- What is rounded with the other sign has the other sign. -/
theorem neg_roundWithAccuracy (s : Sign) (m : Nat) (e : Int) (acc : Accuracy) :
    (roundWithAccuracy .binary64 s m e acc).neg = roundWithAccuracy .binary64 (-s) m e acc := by
  simp only [roundWithAccuracy]
  split_ifs <;> rfl

/-- A product changes its sign with its first factor. -/
theorem neg_mul_parts (a b : UnpackedFloat) :
    (UnpackedFloat.mul .binary64 a b).neg = UnpackedFloat.mul .binary64 a.neg b := by
  have hsign (s t : Sign) : -(s * t) = -s * t := by cases s <;> cases t <;> rfl
  cases a <;> cases b <;> simp only [UnpackedFloat.mul, UnpackedFloat.neg, hsign]
  exact (neg_roundWithAccuracy _ _ _ _).trans (hsign _ _ ▸ rfl)

/-! ## Zeros -/

section Zeros

variable {a b c z : UnpackedFloat}

/-- Parts of a zero add nothing on the right. -/
theorem remains_add (hz : Null z) : Remains (UnpackedFloat.add .binary64 a z) a := by
  rcases hz with rfl | ⟨s, rfl⟩
  · exact .inl (by cases a <;> rfl)
  · cases a with
    | zero t => cases t <;> cases s <;> exact .inr (.zeros _ _)
    | notANumber | infinity | finite => exact .inr (.refl _)

/-- Parts of a zero add nothing on the left. -/
theorem remains_zero_add (hz : Null z) : Remains (UnpackedFloat.add .binary64 z a) a := by
  rcases hz with rfl | ⟨s, rfl⟩
  · exact .inl (by cases a <;> rfl)
  · cases a with
    | zero t => cases t <;> cases s <;> exact .inr (.zeros _ _)
    | notANumber | infinity | finite => exact .inr (.refl _)

/-- The difference of the same parts is a zero, unless it is none. -/
theorem null_sub_self (a : UnpackedFloat) : Null (UnpackedFloat.sub .binary64 a a) := by
  cases a with
  | notANumber => exact .inl rfl
  | infinity s => exact .inl (by cases s <;> rfl)
  | zero s => exact .inr ⟨.positive, by cases s <;> rfl⟩
  | finite s m e hm =>
    refine .inr ⟨.positive, ?_⟩
    simp only [UnpackedFloat.sub, Int.sub_self]
    rfl

/-- The difference of parts that both remain others' is a zero, unless it is none. -/
theorem null_sub (ha : Remains a c) (hb : Remains b c) :
    Null (UnpackedFloat.sub .binary64 a b) := by
  rcases ha with rfl | ha
  · exact .inl (by cases b <;> rfl)
  · rcases hb with rfl | hb
    · exact .inl (by cases a <;> rfl)
    · have hnear := near_sub ha hb
      generalize UnpackedFloat.sub .binary64 a b = d at hnear
      rcases null_sub_self c with hc | ⟨s, hc⟩
      · rw [hc] at hnear
        cases hnear
        exact .inl rfl
      · rw [hc] at hnear
        cases hnear with
        | refl => exact .inr ⟨s, rfl⟩
        | zeros t => exact .inr ⟨t, rfl⟩

/-- A zero times anything is a zero, unless it is none. -/
theorem null_mul (hz : Null z) : Null (UnpackedFloat.mul .binary64 z a) := by
  rcases hz with rfl | ⟨s, rfl⟩
  · exact .inl (by cases a <;> rfl)
  · cases a with
    | notANumber | infinity => exact .inl rfl
    | zero | finite => exact .inr ⟨_, rfl⟩

/-- Anything times a zero is a zero, unless it is none. -/
theorem null_mul_null (hz : Null z) : Null (UnpackedFloat.mul .binary64 a z) := by
  rcases hz with rfl | ⟨s, rfl⟩
  · exact .inl (by cases a <;> rfl)
  · cases a with
    | notANumber | infinity => exact .inl rfl
    | zero | finite => exact .inr ⟨_, rfl⟩

/-- A zero divided by anything is a zero, unless it is none. -/
theorem null_div (hz : Null z) : Null (UnpackedFloat.div .binary64 z a) := by
  rcases hz with rfl | ⟨s, rfl⟩
  · exact .inl (by cases a <;> rfl)
  · cases a with
    | notANumber | zero => exact .inl rfl
    | infinity | finite => exact .inr ⟨_, rfl⟩

/-- The opposite of a zero is a zero. -/
theorem null_neg (hz : Null z) : Null z.neg := by
  rcases hz with rfl | ⟨s, rfl⟩
  · exact .inl rfl
  · exact .inr ⟨_, rfl⟩

/-- Products of what remains something with the same factor remain the product of that. -/
theorem remains_mul (h : Remains a b) :
    Remains (UnpackedFloat.mul .binary64 c a) (UnpackedFloat.mul .binary64 c b) := by
  rcases h with rfl | h
  · exact .inl (by cases c <;> rfl)
  · exact .inr (near_mul (.refl c) h)

/-- The opposite of what remains something remains the opposite of that. -/
theorem remains_neg (h : Remains a b) : Remains a.neg b.neg := by
  rcases h with rfl | h
  · exact .inl rfl
  · cases h with
    | refl => exact .inr (.refl _)
    | zeros s t => exact .inr (.zeros _ _)

/-- A zero is neither below a negative number nor above a positive one. -/
theorem not_lt_of_vanishes {x y : Float} (hx : Scalar.Vanishes x)
    (hy : ∃ m e hm, parts y = .finite .positive m e hm) : ¬x < -y ∧ ¬y < x := by
  obtain ⟨m, e, hm, hy⟩ := hy
  rw [lt_iff_compare, lt_iff_compare, parts_neg, hy]
  rcases vanishes_iff.1 hx with hx | ⟨s, hx⟩ <;> rw [hx] <;> exact ⟨nofun, nofun⟩

end Zeros

/-! ## Numbers -/

instance zeroLaws : Scalar.ZeroLaws Float where
  stays_trans h h' := stays_iff.2 ((stays_iff.1 h).trans (stays_iff.1 h'))
  stays_of_beq h := by
    obtain ⟨-, -, rfl | ⟨rfl, rfl⟩ | ⟨rfl, rfl⟩⟩ := Float.beq_iff_ne_nan_and_eq.1 h
    · exact .refl _
    · exact .inr rfl
    · exact .inr rfl
  stays_add x hz := by
    have h := stays_ofParts (remains_add (a := parts x) (vanishes_iff.1 hz))
    rwa [ofParts_parts] at h
  stays_zero_add x hz := by
    have h := stays_ofParts (remains_zero_add (a := parts x) (vanishes_iff.1 hz))
    rwa [ofParts_parts] at h
  vanishes_sub hx hy := vanishes_ofParts (null_sub (stays_iff.1 hx) (stays_iff.1 hy))
  vanishes_mul _ hz := vanishes_ofParts (null_mul (vanishes_iff.1 hz))
  vanishes_mul_zero _ hz := vanishes_ofParts (null_mul_null (vanishes_iff.1 hz))
  vanishes_div _ hz := vanishes_ofParts (null_div (vanishes_iff.1 hz))
  stays_mul _ _ _ h := stays_ofParts (remains_mul (stays_iff.1 h))
  stays_neg h := stays_ofParts (remains_neg (stays_iff.1 h))
  vanishes_neg hz := vanishes_ofParts (null_neg (vanishes_iff.1 hz))
  stays_neg_mul c x := by
    refine stays_iff.2 (.inr ?_)
    change Near (parts (-ofParts (UnpackedFloat.mul .binary64 (parts c) (parts x))))
      (parts (ofParts (UnpackedFloat.mul .binary64 (parts (-c)) (parts x))))
    rw [parts_neg, parts_neg, ← parts_ofParts_neg, neg_mul_parts]
    exact .refl _
  not_lt hx := not_lt_of_vanishes hx ⟨_, _, _, rfl⟩

end Binary

end Solids
