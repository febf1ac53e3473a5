import Solids.Proofs.Record.Precision
import Solids.Record.Geometry

/-!
# Values read back

What is written in a record is read back the same, as long as its numbers are finite: a number that
is not is written as null. This is said here of all that parts are made of, from single numbers to
transforms, one lemma for each pair of a writer and a reader.

A record is written with all of its fields or without those that are not there, and is read back by
the names of the fields: what a name stands for is the last value of it (`Json.lookup?_append`).
-/

namespace Solids

namespace Json

/-! ## Simple values -/

/-- A finite number has a form of its own. -/
theorem ofReal_of_finite {x : Float} (hx : x.isFinite) : ofReal x = real x := if_pos hx

/-- A finite number is read back. -/
theorem toReal?_ofReal {x : Float} (hx : x.isFinite) : toReal? (ofReal x) = some x := by
  rw [ofReal_of_finite hx, toReal?]

/-- A finite number of single precision is read back, though it is written in double precision. -/
theorem toReal32?_ofReal_widen {x : Float32} (hx : x.isFinite) :
    toReal32? (ofReal (Binary.widen x)) = some x := by
  rw [ofReal_of_finite ((Binary.isFinite_widen x).trans hx), toReal32?, Binary.narrow_widen]

/-- A finite number is not written as null. -/
theorem ofReal_ne_null {x : Float} (hx : x.isFinite) : ofReal x ≠ null := by
  rw [ofReal_of_finite hx]
  nofun

/-- A count is read back. -/
theorem toUInt32?_ofUInt32 (n : UInt32) : toUInt32? (ofUInt32 n) = some n := by
  have hn : (n.toNat : Int) < 4294967296 := by exact_mod_cast n.toNat_lt
  rw [ofUInt32, toUInt32?, if_pos ⟨Int.natCast_nonneg _, hn⟩, Int.toNat_natCast]
  exact congrArg some (UInt32.ofNat_toNat)

/-- A large count is read back. -/
theorem toUInt64?_ofUInt64 (n : UInt64) : toUInt64? (ofUInt64 n) = some n := by
  have hn : (n.toNat : Int) < 18446744073709551616 := by exact_mod_cast n.toNat_lt
  rw [ofUInt64, toUInt64?, if_pos ⟨Int.natCast_nonneg _, hn⟩, Int.toNat_natCast]
  exact congrArg some (UInt64.ofNat_toNat)

section Compound

variable {β : Type} {read : Json → Option β} {write : β → Json}

/-- A list is read as what its elements are read as. -/
theorem toList?_map_of_forall {γ : Type} {read : Json → Option γ} {xs : List β} {f : β → γ}
    (h : ∀ x ∈ xs, read (write x) = some (f x)) :
    toList? read (list (xs.map write)) = some (xs.map f) := by
  rw [toList?]
  induction xs with
  | nil => rfl
  | cons x xs ih =>
    obtain ⟨hx, hxs⟩ := List.forall_mem_cons.1 h
    rw [List.map_cons, List.mapM_cons, hx, ih hxs]
    rfl

/-- A list is read back if its elements are. -/
theorem toList?_map {xs : List β} (h : ∀ x ∈ xs, read (write x) = some x) :
    toList? read (list (xs.map write)) = some xs :=
  (toList?_map_of_forall h).trans (congrArg some (List.map_id xs))

/-- A value that may be null is read as any other where it is not. -/
theorem nullable_of_ne {j : Json} (hj : j ≠ null) : nullable read j = (read j).map some := by
  cases j with
  | null => exact absurd rfl hj
  | _ => rfl

/-- A value that may be missing is read back, as long as what is there is not written as null. -/
theorem nullable_ofOption {v : Option β} (h : ∀ x ∈ v, read (write x) = some x)
    (hne : ∀ x ∈ v, write x ≠ null) : nullable read (ofOption write v) = some v := by
  cases v with
  | none => rfl
  | some x => rw [ofOption, nullable_of_ne (hne x rfl), h x rfl, Option.map_some]

/-! ## Fields -/

section Object

variable (names : List String) (name : String) (missing : β) (fs : List (String × Json))

/-- An object can be read as any record. -/
@[simp] theorem isRecord_object : isRecord names (object fs) = true := by
  rw [isRecord]

/-- A required field of an object is read from the value of its name. -/
@[simp] theorem required_object :
    required names name read (object fs) = (lookup? name fs).bind read := by
  rw [required, field?]

/-- What a required field of an object is read as. -/
theorem required_of_lookup? {names : List String} {name : String} {fs : List (String × Json)}
    {c : Json} {x : β} (hc : lookup? name fs = some c) (hx : read c = some x) :
    required names name read (object fs) = some x := by
  rw [required_object, hc, Option.bind_some, hx]

/-- A defaulted field of an object is read from the value of its name, if that has one. -/
@[simp] theorem defaulted_object :
    defaulted names name missing read (object fs) =
      (lookup? name fs).elim (some missing) read := by
  rw [defaulted, field?]
  cases lookup? name fs <;> rfl

/-- What a defaulted field of an object is read as where it is not missing. -/
theorem defaulted_of_lookup? {names : List String} {name : String} {fs : List (String × Json)}
    {missing : β} {c : Json} {x : β} (hc : lookup? name fs = some c) (hx : read c = some x) :
    defaulted names name missing read (object fs) = some x := by
  rw [defaulted_object, hc, Option.elim_some, hx]

/-- An optional field of an object is read from the value of its name, if that has one. -/
@[simp] theorem optional_object :
    Json.optional names name read (object fs) =
      (lookup? name fs).elim (some none) (nullable read) :=
  defaulted_object names name none fs

/-- A field that is left out where there is nothing to write is read back, as long as what is there
    is not written as null. -/
theorem optional_of_lookup? {names : List String} {name : String} {fs : List (String × Json)}
    {v : Option β} (hfield : lookup? name fs = v.map write) (h : ∀ x ∈ v, read (write x) = some x)
    (hne : ∀ x ∈ v, write x ≠ null) : Json.optional names name read (object fs) = some v := by
  rw [optional_object, hfield]
  cases v with
  | none => rfl
  | some x => exact nullable_ofOption h hne

/-- There is no value among no fields. -/
@[simp] theorem lookup?_nil : lookup? name [] = none := by
  rw [lookup?]

/-- A field has the name, unless a later one does. -/
@[simp] theorem lookup?_cons (k : String) (v : Json) :
    lookup? name ((k, v) :: fs) = (lookup? name fs).or (if k = name then some v else none) := by
  rw [lookup?]

/-- A name stands for its last value. -/
@[simp] theorem lookup?_append (gs : List (String × Json)) :
    lookup? name (fs ++ gs) = (lookup? name gs).or (lookup? name fs) := by
  induction fs with
  | nil => rw [List.nil_append, lookup?_nil, Option.or_none]
  | cons f fs ih => rw [List.cons_append, lookup?, ih, lookup?, Option.or_assoc]

/-- A field that is left out where there is nothing to write has its name and no other. -/
@[simp] theorem lookup?_fieldIfSome (other : String) (v : Option β) :
    lookup? name (fieldIfSome other write v) = if other = name then v.map write else none := by
  cases v <;> simp [fieldIfSome]

end Object

end Compound

end Json

open Json

/-! ## Points, paths and meshes -/

namespace Vec3

/-- The components are finite. -/
def Finite (v : Vec3 Float) : Prop := ∀ x ∈ v.toList, x.isFinite = true

instance (v : Vec3 Float) : Decidable v.Finite :=
  inferInstanceAs (Decidable (∀ x ∈ v.toList, x.isFinite = true))

/-- A finite vector is read back. -/
theorem ofJson?_toJson {v : Vec3 Float} (h : v.Finite) : ofJson? v.toJson = some v := by
  rw [ofJson?, toJson, toList?_map fun x hx => toReal?_ofReal (h x hx)]
  rfl

end Vec3

namespace Rotation

/-- The components are finite. -/
def Finite (q : Rotation Float) : Prop := ∀ x ∈ q.toList, x.isFinite = true

instance (q : Rotation Float) : Decidable q.Finite :=
  inferInstanceAs (Decidable (∀ x ∈ q.toList, x.isFinite = true))

/-- A finite rotation is read back. -/
theorem ofJson?_toJson {q : Rotation Float} (h : q.Finite) : ofJson? q.toJson = some q := by
  rw [ofJson?, toJson, toList?_map fun x hx => toReal?_ofReal (h x hx)]
  rfl

end Rotation

/-- A point of a path is read back if its position is finite. -/
theorem Waypoint.ofJson?_toJson {p : Waypoint Float} (h : p.position.Finite) :
    ofJson? p.toJson = some p := by
  simp [ofJson?, toJson, toBool?, Vec3.ofJson?_toJson h]

namespace Path

/-- The points are at finite positions. -/
def Finite (p : Path Float) : Prop := ∀ q ∈ p.points, q.position.Finite

instance (p : Path Float) : Decidable p.Finite :=
  inferInstanceAs (Decidable (∀ q ∈ p.points, q.position.Finite))

/-- A finite path is read back. -/
theorem ofJson?_toJson {p : Path Float} (h : p.Finite) : ofJson? p.toJson = some p := by
  rw [ofJson?, toJson, toList?_map fun q hq => Waypoint.ofJson?_toJson (h q hq), Option.map_some]

/-- Finite paths are read back. -/
theorem listOfJson?_listToJson {ps : List (Path Float)} (h : ∀ p ∈ ps, p.Finite) :
    listOfJson? (listToJson ps) = some ps :=
  toList?_map fun p hp => ofJson?_toJson (h p hp)

end Path

/-- A triangle is read back. -/
theorem Triangle.ofJson?_toJson (t : Triangle UInt32) : ofJson? t.toJson = some t := by
  rw [ofJson?, toJson, toList?_map fun i _ => toUInt32?_ofUInt32 i]
  rfl

namespace Rgba

/-- The components are finite. -/
def Finite (c : Rgba) : Prop := ∀ x ∈ c.toList, x.isFinite = true

instance (c : Rgba) : Decidable c.Finite :=
  inferInstanceAs (Decidable (∀ x ∈ c.toList, x.isFinite = true))

/-- A finite vertex color is read back. -/
theorem ofJson?_toJson {c : Rgba} (h : c.Finite) : ofJson? c.toJson = some c := by
  rw [ofJson?, toJson, toList?_map fun x hx => toReal32?_ofReal_widen (h x hx)]
  rfl

end Rgba

namespace Mesh

/-- The vertices and the colors are finite. -/
def Finite (m : Mesh Float) : Prop :=
  (∀ v ∈ m.vertices.toList, v.Finite) ∧ ∀ colors ∈ m.colors, ∀ c ∈ colors.toList, c.Finite

instance (m : Mesh Float) : Decidable m.Finite :=
  inferInstanceAs (Decidable ((∀ v ∈ m.vertices.toList, v.Finite) ∧
    ∀ colors ∈ m.colors, ∀ c ∈ colors.toList, c.Finite))

/-- A finite mesh is read back, whether its parts fit together or not. -/
theorem ofJson?_toJson {m : Mesh Float} (h : m.Finite) : ofJson? m.toJson = some m := by
  obtain ⟨vertices, triangles, colors⟩ := m
  obtain ⟨hvertices, hcolors⟩ := h
  have hread := toList?_map fun v hv => Vec3.ofJson?_toJson (hvertices v hv)
  have hread' := toList?_map fun t (_ : t ∈ triangles) => t.ofJson?_toJson
  cases colors with
  | none => simp [ofJson?, toJson, hread, hread']
  | some colors =>
    have hread'' := toList?_map fun c hc => Rgba.ofJson?_toJson (hcolors colors rfl c hc)
    simp [ofJson?, toJson, nullable, hread, hread', hread'']

end Mesh

/-! ## Materials -/

namespace Color

/-- The components are finite. -/
def Finite (c : Color) : Prop := ∀ x ∈ [c.r, c.g, c.b, c.a], x.isFinite = true

instance (c : Color) : Decidable c.Finite :=
  inferInstanceAs (Decidable (∀ x ∈ [c.r, c.g, c.b, c.a], x.isFinite = true))

/-- A finite color is read back. -/
theorem ofJson?_toJson {c : Color} (h : c.Finite) : ofJson? c.toJson = some c := by
  simp only [Finite, List.forall_mem_cons] at h
  obtain ⟨hr, hg, hb, ha, -⟩ := h
  simp [ofJson?, toJson, toReal?_ofReal hr, toReal?_ofReal hg, toReal?_ofReal hb, toReal?_ofReal ha]

end Color

/-- An image of finite intensity is read back. -/
theorem Texture.ofJson?_toJson {t : Texture} (h : t.intensity.isFinite) :
    ofJson? t.toJson = some t := by
  simp [ofJson?, toJson, toText?, toReal?_ofReal h]

namespace Diffuse

/-- The numbers of the color or the image are finite. -/
def Finite : Diffuse → Prop
  | color c => c.Finite
  | texture t => t.intensity.isFinite

instance : (d : Diffuse) → Decidable d.Finite
  | color c => inferInstanceAs (Decidable c.Finite)
  | texture t => inferInstanceAs (Decidable (t.intensity.isFinite = true))

/-- A finite surface is read back. -/
theorem ofJson?_toJson {d : Diffuse} (h : d.Finite) : ofJson? d.toJson = some d := by
  cases d with
  | color c => rw [toJson, ofJson?, Color.ofJson?_toJson h, Option.map_some]
  | texture t => rw [toJson, ofJson?, Texture.ofJson?_toJson h, Option.map_some]

/-- No surface is written as null. -/
theorem toJson_ne_null (d : Diffuse) : d.toJson ≠ null := by
  cases d <;> nofun

end Diffuse

namespace Material

/-- The opacity and the surface are finite. -/
def Finite (m : Material) : Prop := m.opacity.isFinite ∧ ∀ d ∈ m.diffuse, d.Finite

instance (m : Material) : Decidable m.Finite :=
  inferInstanceAs (Decidable (m.opacity.isFinite = true ∧ ∀ d ∈ m.diffuse, d.Finite))

/-- A finite material is read back. -/
theorem ofJson?_toJson {m : Material} (h : m.Finite) : ofJson? m.toJson = some m := by
  have hdiffuse := nullable_ofOption (fun d hd => Diffuse.ofJson?_toJson (h.2 d hd))
    fun d _ => d.toJson_ne_null
  simp [ofJson?, toJson, toReal?_ofReal h.1, hdiffuse]

end Material

/-! ## Transforms -/

namespace Transform

/-- The offset, the rotation and the scale are finite. -/
def Finite (t : Transform Float) : Prop := t.offset.Finite ∧ t.rotation.Finite ∧ t.scale.Finite

instance (t : Transform Float) : Decidable t.Finite :=
  inferInstanceAs (Decidable (t.offset.Finite ∧ t.rotation.Finite ∧ t.scale.Finite))

/-- A finite transform is read back. -/
theorem ofJson?_toJson {t : Transform Float} (h : t.Finite) : ofJson? t.toJson = some t := by
  simp [ofJson?, toJson, Vec3.ofJson?_toJson h.1, Rotation.ofJson?_toJson h.2.1,
    Vec3.ofJson?_toJson h.2.2]

end Transform

/-! ## Parameters of kinds -/

/-- An alignment is read back. -/
theorem Alignment.ofOptionJson?_toJson (a : Alignment) : ofOptionJson? a.toJson = some a := by
  cases a <;> simp [toJson, ofOptionJson?, ofJson?, name, ofName?]

namespace Extrusion

/-- The rails and the twist are finite. -/
def Finite (e : Extrusion Float) : Prop := (∀ p ∈ e.along, p.Finite) ∧ e.twist.isFinite

instance (e : Extrusion Float) : Decidable e.Finite :=
  inferInstanceAs (Decidable ((∀ p ∈ e.along, p.Finite) ∧ e.twist.isFinite = true))

/-- A finite extrusion is read back. -/
theorem ofJson?_toJson {e : Extrusion Float} (h : e.Finite) : ofJson? e.toJson = some e := by
  simp [ofJson?, toJson, Path.listOfJson?_listToJson h.1, toReal?_ofReal h.2,
    Alignment.ofOptionJson?_toJson]

end Extrusion

/-- A number that may be missing is read back if it is finite. -/
theorem nullable_ofOption_ofReal {v : Option Float} (h : ∀ x ∈ v, x.isFinite = true) :
    nullable toReal? (ofOption ofReal v) = some v :=
  nullable_ofOption (fun x hx => toReal?_ofReal (h x hx)) fun x hx => ofReal_ne_null (h x hx)

namespace Camera

/-- The numbers that are there are finite. -/
def Finite (c : Camera) : Prop := ∀ v ∈ [c.fov, c.width, c.height], ∀ x ∈ v, x.isFinite = true

instance (c : Camera) : Decidable c.Finite :=
  inferInstanceAs (Decidable (∀ v ∈ [c.fov, c.width, c.height], ∀ x ∈ v, x.isFinite = true))

/-- A finite camera is read back from its fields, whatever names its kind. -/
theorem ofJson?_toFields {c : Camera} (h : c.Finite) (j : Json) :
    ofJson? (.object (("kind", j) :: c.toFields)) = some c := by
  simp only [Finite, List.forall_mem_cons] at h
  obtain ⟨hfov, hwidth, hheight, -⟩ := h
  simp [ofJson?, toFields, nullable_ofOption_ofReal hfov, nullable_ofOption_ofReal hwidth,
    nullable_ofOption_ofReal hheight]

end Camera

namespace Light

/-- The color, the spread and the softness are finite. -/
def Finite (l : Light) : Prop := l.color.Finite ∧ l.spread.isFinite ∧ l.penumbra.isFinite

instance (l : Light) : Decidable l.Finite :=
  inferInstanceAs (Decidable (l.color.Finite ∧ l.spread.isFinite = true ∧
    l.penumbra.isFinite = true))

/-- A finite light is read back from its fields, whatever names its kind. -/
theorem ofJson?_toFields {l : Light} (h : l.Finite) (j : Json) :
    ofJson? (.object (("kind", j) :: l.toFields)) = some l := by
  simp [ofJson?, toFields, Color.ofJson?_toJson h.1, toReal?_ofReal h.2.1, toReal?_ofReal h.2.2]

end Light

end Solids
