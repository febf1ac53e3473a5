import Solids.Precision

/-!
# Record values

The values that records are written in (`Json`). A number with neither a point nor an exponent is
an integer if it fits 64 bits, with or without a sign. Integers are kept apart from the other
numbers: where a record asks for a count, `8.0` is refused, and each precision rounds an integer
itself (`Json.toReal?`, `Json.toReal32?`).

A record is an object that holds its fields by name; what it does not know is ignored. The fields
may also be listed without their names, in order (`Json.field?`).
-/

namespace Solids

/-- A value of a record. -/
inductive Json
  | null
  | bool (b : Bool)
  | int (n : Int)
  | real (x : Float)
  | text (s : String)
  | list (xs : List Json)
  | object (fields : List (String × Json))

namespace Json

/-- The last value of a name. -/
def lookup? (name : String) : List (String × Json) → Option Json
  | [] => none
  | (k, v) :: rest => (lookup? name rest).or (if k = name then some v else none)

/-- The value can be read as a record of the given fields: an object, or a list of no more
    values. -/
def isRecord (names : List String) : Json → Bool
  | object _ => true
  | list xs => xs.length ≤ names.length
  | _ => false

/-- The value of a field in a record of the given fields. -/
def field? (names : List String) (name : String) : Json → Option Json
  | object fields => lookup? name fields
  | list xs => xs[names.idxOf name]?
  | _ => none

/-- The value of a name is smaller than the fields that hold it. -/
theorem sizeOf_lt_of_lookup?_eq_some {name : String} {fields : List (String × Json)} {j : Json}
    (h : lookup? name fields = some j) : sizeOf j < sizeOf fields := by
  induction fields with
  | nil => simp [lookup?] at h
  | cons f fs ih =>
    obtain ⟨k, v⟩ := f
    simp only [lookup?, Option.or_eq_some_iff] at h
    simp only [List.cons.sizeOf_spec, Prod.mk.sizeOf_spec]
    rcases h with h | ⟨_, h⟩
    · have := ih h; omega
    · split at h
      · cases h; omega
      · cases h

/-- The value of a field is smaller than the record. -/
theorem sizeOf_lt_of_field?_eq_some {names : List String} {name : String} {j c : Json}
    (h : field? names name j = some c) : sizeOf c < sizeOf j := by
  cases j with
  | object fields =>
    have := sizeOf_lt_of_lookup?_eq_some h
    simp only [object.sizeOf_spec]; omega
  | list xs =>
    have := List.sizeOf_lt_of_mem (List.mem_of_getElem? h)
    simp only [list.sizeOf_spec]; omega
  | _ => simp [field?] at h

/-! ## Simple values -/

/-- A truth value. -/
def toBool? : Json → Option Bool
  | bool b => some b
  | _ => none

/-- A text. -/
def toText? : Json → Option String
  | text s => some s
  | _ => none

/-- A number, also if it is written as an integer. -/
def toReal? : Json → Option Float
  | int n => some (Float.ofInt n)
  | real x => some x
  | _ => none

/-- A number in single precision. An integer is rounded once, and not by way of the number of
    double precision that is nearest to it. -/
def toReal32? : Json → Option Float32
  | int n => some (Float32.ofInt n)
  | real x => some (Binary.narrow x)
  | _ => none

/-- An integer from zero to below `2 ^ 32`. -/
def toUInt32? : Json → Option UInt32
  | int n => if 0 ≤ n ∧ n < 4294967296 then some n.toNat.toUInt32 else none
  | _ => none

/-- An integer from zero to below `2 ^ 64`. -/
def toUInt64? : Json → Option UInt64
  | int n => if 0 ≤ n ∧ n < 18446744073709551616 then some n.toNat.toUInt64 else none
  | _ => none

/-- A list of values that are all read by `read`. -/
def toList? {β : Type} (read : Json → Option β) : Json → Option (List β)
  | list xs => xs.mapM read
  | _ => none

/-! ## Fields -/

variable {β : Type}

/-- A field that has to be there. -/
def required (names : List String) (name : String) (read : Json → Option β) (j : Json) :
    Option β :=
  (field? names name j).bind read

/-- A field with a value for where it is missing. -/
def defaulted (names : List String) (name : String) (missing : β) (read : Json → Option β)
    (j : Json) : Option β :=
  match field? names name j with
  | none => some missing
  | some c => read c

/-- A value that may be null. -/
def nullable (read : Json → Option β) : Json → Option (Option β)
  | null => some none
  | j => (read j).map some

/-- A field that may be missing or null. -/
def optional (names : List String) (name : String) (read : Json → Option β) (j : Json) :
    Option (Option β) :=
  defaulted names name none (nullable read) j

/-! ## Writing -/

/-- A number; what is not finite has no form of its own and is written as null. -/
def ofReal (x : Float) : Json := if x.isFinite then real x else null

/-- A count. -/
def ofUInt32 (n : UInt32) : Json := int n.toNat

/-- A large count. -/
def ofUInt64 (n : UInt64) : Json := int n.toNat

/-- A value, or null where there is none. -/
def ofOption (write : β → Json) : Option β → Json
  | none => null
  | some x => write x

/-- A field that is left out where there is nothing to write. -/
def fieldIfSome (name : String) (write : β → Json) : Option β → List (String × Json)
  | none => []
  | some x => [(name, write x)]

end Json

end Solids
