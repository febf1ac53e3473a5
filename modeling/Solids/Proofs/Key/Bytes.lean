import Mathlib.Data.List.Forall2
import Solids.Key

/-!
# Bytes that end by themselves

Keys are digested from many pieces of bytes one after another, some of them of any length, and
nothing but the bytes says where one piece ends. They are *delimited* (`Delimited`) if two pieces
with anything after them can only be the same if the pieces mean the same and what comes after is
the same. Delimited pieces put together are delimited, so everything that is written as a key is
known to be once the elementary pieces are:

* words and indices (`wordBytes_append`, `indexBytes_append`), which are of one length;
* texts (`textBytes_append`), since the byte at their end is in no text;
* lists (`Delimited.list`) and what may be missing (`Delimited.option`), which begin with a length
  and a mark.

The length of a list is written as a word, so only lists that have a word for a length are told
apart (`Countable`). No machine of 64 bits holds another.
-/

namespace Solids

variable {β γ : Type}

/-- The bytes of whatever fits tell where they end and, up to likeness, what they are of. -/
def Delimited (fits : β → Prop) (alike : β → β → Prop) (bytes : β → List UInt8) : Prop :=
  ∀ ⦃x y : β⦄, fits x → fits y → ∀ {s t : List UInt8},
    bytes x ++ s = bytes y ++ t ↔ alike x y ∧ s = t

/-- The list has a word for its length. -/
def Countable (xs : List β) : Prop := xs.length < UInt64.size

instance (xs : List β) : Decidable (Countable xs) :=
  inferInstanceAs (Decidable (xs.length < UInt64.size))

/-! ## Pieces of one length -/

/-- Bytes of one length end where that length is reached. -/
theorem append_inj_of_length {bytes : β → List UInt8} {n : Nat}
    (hlength : ∀ x, (bytes x).length = n) (hinj : Function.Injective bytes) {x y : β}
    {s t : List UInt8} : bytes x ++ s = bytes y ++ t ↔ x = y ∧ s = t := by
  constructor
  · intro h
    obtain ⟨hbytes, hrest⟩ := List.append_inj h ((hlength x).trans (hlength y).symm)
    exact ⟨hinj hbytes, hrest⟩
  · rintro ⟨rfl, rfl⟩
    rfl

/-- A word has eight bytes. -/
@[simp] theorem length_wordBytes (w : UInt64) : (wordBytes w).length = 8 := rfl

/-- Words of the same bytes are the same. -/
theorem wordBytes_injective : Function.Injective wordBytes := by
  intro v w h
  simp only [wordBytes, List.cons.injEq, ← UInt8.toNat_inj, UInt64.toNat_toUInt8,
    UInt64.toNat_shiftRight, and_true] at h
  obtain ⟨h0, h1, h2, h3, h4, h5, h6, h7⟩ := h
  simp [Nat.shiftRight_eq_div_pow] at h0 h1 h2 h3 h4 h5 h6 h7
  have hv := v.toNat_lt
  have hw := w.toNat_lt
  refine UInt64.toNat_inj.1 ?_
  omega

/-- An index has four bytes. -/
@[simp] theorem length_indexBytes (i : UInt32) : (indexBytes i).length = 4 := rfl

/-- Indices of the same bytes are the same. -/
theorem indexBytes_injective : Function.Injective indexBytes := by
  intro i j h
  simp only [indexBytes, List.cons.injEq, ← UInt8.toNat_inj, UInt32.toNat_toUInt8,
    UInt32.toNat_shiftRight, and_true] at h
  obtain ⟨h0, h1, h2, h3⟩ := h
  simp [Nat.shiftRight_eq_div_pow] at h0 h1 h2 h3
  have hi := i.toNat_lt
  have hj := j.toNat_lt
  refine UInt32.toNat_inj.1 ?_
  omega

/-- A word ends after eight bytes. -/
theorem wordBytes_append {v w : UInt64} {s t : List UInt8} :
    wordBytes v ++ s = wordBytes w ++ t ↔ v = w ∧ s = t :=
  append_inj_of_length length_wordBytes wordBytes_injective

/-- An index ends after four bytes. -/
theorem indexBytes_append {i j : UInt32} {s t : List UInt8} :
    indexBytes i ++ s = indexBytes j ++ t ↔ i = j ∧ s = t :=
  append_inj_of_length length_indexBytes indexBytes_injective

/-- A truth value is one byte. -/
theorem boolBytes_append {a b : Bool} {s t : List UInt8} :
    boolBytes a ++ s = boolBytes b ++ t ↔ a = b ∧ s = t := by
  cases a <;> cases b <;> simp [boolBytes]

/-- Countable lists of the same length bytes have the same length. -/
theorem lengthBytes_append {xs : List β} {ys : List γ} (hx : Countable xs) (hy : Countable ys)
    {s t : List UInt8} :
    lengthBytes xs.length ++ s = lengthBytes ys.length ++ t ↔ xs.length = ys.length ∧ s = t := by
  rw [lengthBytes, lengthBytes, wordBytes_append, ← UInt64.toNat_inj, UInt64.toNat_ofNat',
    UInt64.toNat_ofNat', Nat.mod_eq_of_lt hx, Nat.mod_eq_of_lt hy]

/-! ## Texts -/

/-- No byte of a character is the one at the end of a text. -/
theorem ne_of_mem_utf8EncodeChar {c : Char} {b : UInt8} (hb : b ∈ String.utf8EncodeChar c) :
    b ≠ 0xff := by
  rintro rfl
  -- The greatest bytes, which begin the characters of four, are below `248`.
  have hbyte {n : Nat} (hn : n < 255) (h : 0xff = UInt8.ofNat n) : False := by
    have := congrArg UInt8.toNat h
    rw [UInt8.toNat_ofNat', Nat.mod_eq_of_lt (by omega)] at this
    exact absurd this.symm (Nat.ne_of_lt hn)
  simp only [String.utf8EncodeChar] at hb
  split_ifs at hb
  all_goals simp only [List.mem_cons, List.not_mem_nil, or_false] at hb
  · exact hbyte (by omega) hb
  · rcases hb with hb | hb
    all_goals exact hbyte (by omega) hb
  · rcases hb with hb | hb | hb
    all_goals exact hbyte (by omega) hb
  · rcases hb with hb | hb | hb | hb
    all_goals exact hbyte (by omega) hb

/-- No byte of a text is the one at its end. -/
theorem ne_of_mem_text {s : String} {b : UInt8} (hb : b ∈ s.toByteArray.data.toList) :
    b ≠ 0xff := by
  obtain ⟨cs, hcs⟩ := s.isValidUTF8
  rw [hcs, List.utf8Encode, List.data_toByteArray, List.mem_flatMap] at hb
  obtain ⟨c, _, hc⟩ := hb
  exact ne_of_mem_utf8EncodeChar hc

/-- Two lists without a mark are the same if they are with the mark after them, whatever follows
    it. -/
theorem append_mark_inj {mark : β} {xs ys s t : List β} (hx : mark ∉ xs) (hy : mark ∉ ys) :
    xs ++ mark :: s = ys ++ mark :: t ↔ xs = ys ∧ s = t := by
  induction xs generalizing ys with
  | nil =>
    cases ys with
    | nil => simp
    | cons y ys =>
      have hne : mark ≠ y := fun h => hy (h ▸ List.mem_cons_self)
      simp [hne]
  | cons x xs ih =>
    obtain ⟨hne, hxs⟩ := not_or.1 (mt List.mem_cons.2 hx)
    cases ys with
    | nil => simp [Ne.symm hne]
    | cons y ys =>
      obtain ⟨_, hys⟩ := not_or.1 (mt List.mem_cons.2 hy)
      rw [List.cons_append, List.cons_append, List.cons.injEq, List.cons.injEq, ih hxs hys,
        and_assoc]

/-- A text ends with the first byte that is in no text. -/
theorem textBytes_append {a b : String} {s t : List UInt8} :
    textBytes a ++ s = textBytes b ++ t ↔ a = b ∧ s = t := by
  rw [textBytes, textBytes, List.append_assoc, List.append_assoc, List.singleton_append,
    List.singleton_append, append_mark_inj (fun h => ne_of_mem_text h rfl)
      (fun h => ne_of_mem_text h rfl), Array.toList_inj, ← ByteArray.ext_iff,
    String.toByteArray_inj]

/-! ## Lists and what may be missing -/

/-- As many delimited pieces, one after another, are delimited. -/
theorem Delimited.flatMap {fits : β → Prop} {alike : β → β → Prop} {bytes : β → List UInt8}
    (h : Delimited fits alike bytes) {xs ys : List β} (hx : ∀ x ∈ xs, fits x)
    (hy : ∀ y ∈ ys, fits y) (hlength : xs.length = ys.length) {s t : List UInt8} :
    xs.flatMap bytes ++ s = ys.flatMap bytes ++ t ↔ List.Forall₂ alike xs ys ∧ s = t := by
  induction xs generalizing ys with
  | nil =>
    rw [List.length_nil, eq_comm, List.length_eq_zero_iff] at hlength
    simp [hlength]
  | cons x xs ih =>
    cases ys with
    | nil => cases hlength
    | cons y ys =>
      obtain ⟨hx, hxs⟩ := List.forall_mem_cons.1 hx
      obtain ⟨hy, hys⟩ := List.forall_mem_cons.1 hy
      rw [List.flatMap_cons, List.flatMap_cons, List.append_assoc, List.append_assoc, h hx hy,
        ih hxs hys (Nat.succ.inj hlength), List.forall₂_cons, and_assoc]

/-- A list of delimited pieces with its length in front is delimited. -/
theorem Delimited.list {fits : β → Prop} {alike : β → β → Prop} {bytes : β → List UInt8}
    (h : Delimited fits alike bytes) :
    Delimited (fun xs => Countable xs ∧ ∀ x ∈ xs, fits x) (List.Forall₂ alike)
      (listBytes bytes) := by
  intro xs ys ⟨hx, hxs⟩ ⟨hy, hys⟩ s t
  rw [listBytes, listBytes, List.append_assoc, List.append_assoc, lengthBytes_append hx hy]
  constructor
  · rintro ⟨hlength, heq⟩
    exact (h.flatMap hxs hys hlength).1 heq
  · rintro ⟨halike, rfl⟩
    exact ⟨halike.length_eq, (h.flatMap hxs hys halike.length_eq).2 ⟨halike, rfl⟩⟩

/-- A mark, and a delimited piece if the mark says so, is delimited. -/
theorem Delimited.option {fits : β → Prop} {alike : β → β → Prop} {bytes : β → List UInt8}
    (h : Delimited fits alike bytes) :
    Delimited (fun x => ∀ y ∈ x, fits y) (Option.Rel alike) (optionBytes bytes) := by
  intro x y hx hy s t
  cases x with
  | none => cases y <;> simp [optionBytes]
  | some x =>
    cases y with
    | none => simp [optionBytes]
    | some y =>
      rw [optionBytes, optionBytes, List.cons_append, List.cons_append, List.cons.injEq,
        h (hx x rfl) (hy y rfl), Option.rel_some_some]
      exact and_iff_right rfl

section Unconditional

variable {alike : β → β → Prop} {bytes : β → List UInt8}
  (h : ∀ (x y : β) (s t : List UInt8), bytes x ++ s = bytes y ++ t ↔ alike x y ∧ s = t)
include h

/-- A countable list of pieces that end by themselves ends by itself. -/
theorem listBytes_append {xs ys : List β} (hx : Countable xs) (hy : Countable ys)
    {s t : List UInt8} :
    listBytes bytes xs ++ s = listBytes bytes ys ++ t ↔ List.Forall₂ alike xs ys ∧ s = t := by
  have hdelimited : Delimited (fun _ => True) alike bytes := fun x y _ _ => h x y _ _
  exact hdelimited.list ⟨hx, fun _ _ => trivial⟩ ⟨hy, fun _ _ => trivial⟩

/-- A piece that ends by itself and may be missing does so, too. -/
theorem optionBytes_append {x y : Option β} {s t : List UInt8} :
    optionBytes bytes x ++ s = optionBytes bytes y ++ t ↔ Option.Rel alike x y ∧ s = t := by
  have hdelimited : Delimited (fun _ => True) alike bytes := fun x y _ _ => h x y _ _
  exact hdelimited.option (fun _ _ => trivial) (fun _ _ => trivial)

end Unconditional

end Solids
