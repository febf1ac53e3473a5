import Solids.Proofs.Key.Made
import Solids.Proofs.Record.Values

/-!
# Parts read back

A tree whose numbers are finite is read back from its record as it was made: of the same kinds with
the same parameters, in the same places, of the same materials and under the same names, with every
part unbuilt (`Node.fresh`). The record has no keys; that the parts have the same ones all the same
is because keys follow from what is in the record (`Node.records_read_back`).
-/

namespace Solids

open Json

/-! ## Kinds -/

namespace Kind

/-- The numbers among the parameters are finite. -/
def Finite : Kind Float → Prop
  | group | cube | combination _ | cone _ | cylinder _ | sphere _ => True
  | extrude paths options => (∀ p ∈ paths, p.Finite) ∧ options.Finite
  | lathe paths _ | loft paths | fill paths => ∀ p ∈ paths, p.Finite
  | hull points => ∀ v ∈ points, v.Finite
  | path p => p.Finite
  | mesh m => m.Finite
  | camera c => c.Finite
  | light l => l.Finite

instance : (kind : Kind Float) → Decidable kind.Finite
  | group | cube | combination _ | cone _ | cylinder _ | sphere _ => .isTrue trivial
  | extrude paths options =>
    inferInstanceAs (Decidable ((∀ p ∈ paths, p.Finite) ∧ options.Finite))
  | lathe paths _ | loft paths | fill paths => inferInstanceAs (Decidable (∀ p ∈ paths, p.Finite))
  | hull points => inferInstanceAs (Decidable (∀ v ∈ points, v.Finite))
  | path p => inferInstanceAs (Decidable p.Finite)
  | mesh m => inferInstanceAs (Decidable m.Finite)
  | camera c => inferInstanceAs (Decidable c.Finite)
  | light l => inferInstanceAs (Decidable l.Finite)

/-- No parameter takes the name of the kind away. -/
theorem lookup?_toFields (kind : Kind Float) : lookup? "kind" kind.toFields = none := by
  cases kind <;> simp [toFields, Camera.toFields, Light.toFields]

/-- Segments are read back. -/
theorem segmentsOfJson?_of_lookup? {names : List String} {fs : List (String × Json)} {n : UInt32}
    (h : lookup? "segments" fs = some (ofUInt32 n)) :
    segmentsOfJson? names (.object fs) = some n :=
  -- The bound of counts is too great to be unfolded, so no computation may get to it.
  defaulted_of_lookup? h (toUInt32?_ofUInt32 n)

/-- The parameters of a kind with finite numbers are read back by its name. -/
theorem ofNamedJson?_toJson {kind : Kind Float} (h : kind.Finite) :
    ofNamedJson? kind.name kind.toJson = some kind := by
  cases kind with
  | group | cube => simp [ofNamedJson?, toJson, name, bare]
  | combination op => cases op <;> simp [ofNamedJson?, toJson, name, Boolean.name, bare]
  | cone n | cylinder n | sphere n =>
    simp [ofNamedJson?, toJson, toFields, name, round, segmentsOfJson?_of_lookup? (n := n)]
  | extrude paths options =>
    simp [ofNamedJson?, toJson, toFields, name, pathsOfJson?, Path.listOfJson?_listToJson h.1,
      Extrusion.ofJson?_toJson h.2]
  | lathe paths n =>
    simp [ofNamedJson?, toJson, toFields, name, pathsOfJson?, segmentsOfJson?_of_lookup? (n := n),
      Path.listOfJson?_listToJson h]
  | loft paths | fill paths =>
    simp [ofNamedJson?, toJson, toFields, name, pathsOfJson?, Path.listOfJson?_listToJson h]
  | hull points =>
    simp [ofNamedJson?, toJson, toFields, name,
      toList?_map fun v hv => Vec3.ofJson?_toJson (h v hv)]
  | path p => simp [ofNamedJson?, toJson, toFields, name, Path.ofJson?_toJson h]
  | mesh m => simp [ofNamedJson?, toJson, toFields, name, Mesh.ofJson?_toJson h]
  | camera c => exact congrArg (Option.map camera) (Camera.ofJson?_toFields h _)
  | light l => exact congrArg (Option.map light) (Light.ofJson?_toFields h _)

/-- A kind with finite numbers is read back. -/
theorem ofJson?_toJson {kind : Kind Float} (h : kind.Finite) : ofJson? kind.toJson = some kind := by
  have hname : kind.toJson.required ["kind"] "kind" toText? = some kind.name := by
    simp [toJson, lookup?_toFields, toText?]
  rw [ofJson?, hname]
  exact ofNamedJson?_toJson h

end Kind

/-! ## Parts -/

/-- A span is read back. -/
theorem Span.ofJson?_toJson (s : Span) : ofJson? s.toJson = some s := by
  have hstart : s.toJson.required fields "start" toUInt64? = some s.start :=
    required_of_lookup? (by simp) (toUInt64?_ofUInt64 _)
  have hstop : s.toJson.required fields "end" toUInt64? = some s.stop :=
    required_of_lookup? (by simp) (toUInt64?_ofUInt64 _)
  have hrecord : s.toJson.isRecord fields = true := isRecord_object _ _
  simp [ofJson?, hrecord, hstart, hstop]

namespace Node

/-- The numbers that the records of the tree's parts are written from are finite. -/
def Finite (n : Node Float) : Prop :=
  ∀ p ∈ n.parts, p.kind.Finite ∧ p.transform.Finite ∧ p.material.Finite

instance (n : Node Float) : Decidable n.Finite :=
  inferInstanceAs (Decidable (∀ p ∈ n.parts, p.kind.Finite ∧ p.transform.Finite ∧
    p.material.Finite))

/-- The records of parts are those of each. -/
theorem allToJson_eq (ns : List (Node Float)) : allToJson ns = ns.map toJson := by
  induction ns with
  | nil => rw [allToJson, List.map_nil]
  | cons n ns ih => rw [allToJson, ih, List.map_cons]

/-- The fields of a part's record. -/
def toFields (n : Node Float) : List (String × Json) :=
  [("type", n.kind.toJson), ("transform", n.transform.toJson), ("material", n.material.toJson)]
    ++ fieldIfSome "name" .text n.name
    ++ fieldIfSome "span" Span.toJson n.span
    ++ if n.children.isEmpty then [] else [("children", .list (n.children.map toJson))]

/-- The record of a part is an object of its fields. -/
theorem toJson_eq (n : Node Float) : n.toJson = .object n.toFields := by
  cases n
  rw [toJson, allToJson_eq, toFields]

/-- The children are left out where there are none. -/
theorem lookup?_toFields_children (n : Node Float) : lookup? "children" n.toFields =
    if n.children.isEmpty then none else some (.list (n.children.map toJson)) := by
  rw [toFields]
  split <;> simp

/-- The names of the other fields are looked up before the children. -/
theorem lookup?_toFields_of_ne {name : String} (h : "children" ≠ name) (n : Node Float) :
    lookup? name n.toFields = lookup? name
      ([("type", n.kind.toJson), ("transform", n.transform.toJson),
          ("material", n.material.toJson)]
        ++ fieldIfSome "name" .text n.name ++ fieldIfSome "span" Span.toJson n.span) := by
  rw [toFields, lookup?_append]
  split <;> simp [h]

section Keys

variable [KeyDigest]

/-- A part is read from an object field by field, and children that are written in none are none. -/
theorem ofJson?_object (fs : List (String × Json)) :
    ofJson? (.object fs) = (do
      let kind ← required fields "type" Kind.ofJson? (.object fs)
      let transform ← defaulted fields "transform" .identity Transform.ofJson? (.object fs)
      let material ← defaulted fields "material" .default Material.ofJson? (.object fs)
      let name ← Json.optional fields "name" toText? (.object fs)
      let span ← Json.optional fields "span" Span.ofJson? (.object fs)
      let children ← defaulted fields "children" [] (toList? ofJson?) (.object fs)
      return make kind transform material name span children) := by
  rw [ofJson?, if_pos (isRecord_object _ _)]
  refine bind_congr fun kind => bind_congr fun transform => bind_congr fun material =>
    bind_congr fun name => bind_congr fun span => ?_
  rw [defaulted]
  split
  · next h =>
    rw [h]
  · next xs h =>
    rw [h, List.mapM_subtype fun x _ => rfl, List.unattach_attach]
    rfl
  · next c hne h =>
    rw [h]
    cases c with
    | list xs => exact absurd rfl (hne xs)
    | _ => rfl

/-- The fresh tree is made of the same parameters and fresh children. -/
theorem make_map_fresh {n : Node Float} (hkey : n.key = n.computedKey) :
    make n.kind n.transform n.material n.name n.span (n.children.map fresh) = n.fresh := by
  have hkeys : (n.children.map fresh).map (·.key) = n.children.map (·.key) := by
    rw [List.map_map]
    exact List.map_congr_left fun c _ => c.fresh_key
  rw [fresh_eq, make, hkeys, hkey, computedKey]

/-- A well-keyed tree of finite numbers is read back as it was made. -/
theorem ofJson?_toJson {n : Node Float} (hkeys : n.WellKeyed) (hfinite : n.Finite) :
    ofJson? n.toJson = some n.fresh := by
  induction n using induction with
  | step n ih =>
    obtain ⟨hkey, hkeys⟩ := wellKeyed_iff.1 hkeys
    obtain ⟨hfinite, hchildren⟩ := forall_mem_parts.1 hfinite
    have hread := toList?_map_of_forall fun c hc => ih c hc (hkeys c hc) (hchildren c hc)
    have hlookup {name : String} (hne : "children" ≠ name) := lookup?_toFields_of_ne hne n
    have hkind : lookup? "type" n.toFields = some n.kind.toJson :=
      (hlookup (by simp)).trans (by simp)
    have htransform : lookup? "transform" n.toFields = some n.transform.toJson :=
      (hlookup (by simp)).trans (by simp)
    have hmaterial : lookup? "material" n.toFields = some n.material.toJson :=
      (hlookup (by simp)).trans (by simp)
    have hname : lookup? "name" n.toFields = n.name.map .text :=
      (hlookup (by simp)).trans (by simp)
    have hspan : lookup? "span" n.toFields = n.span.map Span.toJson :=
      (hlookup (by simp)).trans (by simp)
    have hchildren : defaulted fields "children" [] (toList? ofJson?) (.object n.toFields) =
        some (n.children.map fresh) := by
      rw [defaulted_object, lookup?_toFields_children]
      split
      · next hempty => rw [List.isEmpty_iff.1 hempty, Option.elim_none, List.map_nil]
      · rw [Option.elim_some, hread]
    rw [toJson_eq, ofJson?_object, required_of_lookup? hkind (Kind.ofJson?_toJson hfinite.1),
      defaulted_of_lookup? htransform (Transform.ofJson?_toJson hfinite.2.1),
      defaulted_of_lookup? hmaterial (Material.ofJson?_toJson hfinite.2.2),
      optional_of_lookup? hname (fun _ _ => rfl) fun _ _ => nofun,
      optional_of_lookup? hspan (fun s _ => s.ofJson?_toJson) fun _ _ => nofun, hchildren,
      ← make_map_fresh hkey]
    rfl

/-- A tree is read back from its record as it was made, if its numbers are finite and its parts
    have the keys that follow from them: of the same kinds, in the same places, of the same
    materials, with the same names and spans, and with the same keys, but with no part built. How
    far which of its parts are built makes no difference. The parts of every tree that was made
    have those keys. -/
theorem records_read_back :
    (∀ n : Node Float, n.WellKeyed → n.Finite → ofJson? n.toJson = some n.fresh) ∧
      ∀ n : Node Float, n.Made → n.WellKeyed :=
  ⟨fun _ => ofJson?_toJson, fun _ => Made.wellKeyed⟩

end Keys

/-! ## A lamp -/

/-- A painted triangle. -/
def paintedTriangle : Mesh Float where
  vertices := #[⟨0.0, 0.0, 0.0⟩, ⟨1.0, 0.0, 0.0⟩, ⟨0.1, 1.0, 0.0⟩]
  triangles := [⟨0, 1, 2⟩]
  colors := some #[⟨0.1, 0.2, 0.3, 1.0⟩, ⟨0.1, 0.2, 0.3, 1.0⟩, .unpainted]

/-- A lamp of a shade that is built, a stand whose children are being built, and a light. -/
def lamp [KeyDigest] : Node Float :=
  let rail : Path Float := ⟨[⟨⟨0.0, 0.0, 0.0⟩, false⟩, ⟨⟨0.0, 1e300, 0.0⟩, true⟩]⟩
  let shade := make (.mesh paintedTriangle) .identity (.ofTexture "linen") none none []
  let stand := make (.extrude [rail] { along := [rail], twist := -0.0, align := .axis })
    { Transform.identity with scale := ⟨1.0, -2.0, 1.0⟩ } .default (some "stand") none []
  make .group .identity (.ofColor .white) (some "lamp") (some ⟨9, 4⟩)
    [{ shade with state := .built, mesh := some paintedTriangle },
      { stand with state := .building },
      make (.light { spread := 0.1 }) .identity .default none none []]

section Mixing

attribute [local instance] KeyDigest.mixing

/-- The lamp is read back as it was made. -/
theorem records_read_back_lamp : lamp.WellKeyed ∧ lamp.Finite ∧
    ofJson? lamp.toJson = some lamp.fresh ∧ (Node.new (.cone 3) : Node Float).WellKeyed := by
  have hkeys : lamp.WellKeyed := by
    change ∀ p ∈ lamp.parts, p.key = p.computedKey
    decide +kernel
  have hfinite : lamp.Finite := by decide +kernel
  exact ⟨hkeys, hfinite, records_read_back.1 lamp hkeys hfinite,
    records_read_back.2 _ (.new (.cone 3))⟩

end Mixing

end Node

end Solids
