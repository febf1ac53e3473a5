import Solids.Record.Geometry
import Solids.Scene

/-!
# Records of models

How parts and scenes are read from records and written to them. A record of a part holds what its
key follows from, its name and its span, and the records of its children; the key is computed
anew, and a part that was read is unbuilt.
-/

namespace Solids

open Json

namespace Span

/-- The fields of a span. -/
def fields : List String := ["start", "end"]

/-- A span from its ends. -/
def ofJson? (j : Json) : Option Span := do
  guard (j.isRecord fields)
  let start ← j.required fields "start" toUInt64?
  let stop ← j.required fields "end" toUInt64?
  return { start, stop }

/-- The record of a span. -/
def toJson (s : Span) : Json := .object [("start", ofUInt64 s.start), ("end", ofUInt64 s.stop)]

end Span

namespace Node

/-- The fields of a part. -/
def fields : List String := ["type", "transform", "material", "name", "span", "children"]

/-- A part, with all parts below it. -/
def ofJson? [KeyDigest] (j : Json) : Option (Node Float) :=
  if j.isRecord fields then do
    let kind ← j.required fields "type" Kind.ofJson?
    let transform ← j.defaulted fields "transform" .identity Transform.ofJson?
    let material ← j.defaulted fields "material" .default Material.ofJson?
    let name ← j.optional fields "name" toText?
    let span ← j.optional fields "span" Span.ofJson?
    let children ← match _h : j.field? fields "children" with
      | none => some []
      | some (.list xs) => xs.attach.mapM fun x => ofJson? x.1
      | some _ => none
    return make kind transform material name span children
  else none
termination_by sizeOf j
decreasing_by
  -- A child is an element of a list that is a field of the record.
  have hj := sizeOf_lt_of_field?_eq_some _h
  have hx := List.sizeOf_lt_of_mem x.2
  simp only [list.sizeOf_spec] at hj
  omega

mutual

/-- The record of a part. -/
def toJson : Node Float → Json
  | { kind, transform, material, name, span, children, .. } =>
    .object ([("type", kind.toJson), ("transform", transform.toJson),
        ("material", material.toJson)]
      ++ fieldIfSome "name" .text name
      ++ fieldIfSome "span" Span.toJson span
      ++ if children.isEmpty then [] else [("children", .list (allToJson children))])

/-- The records of parts. -/
def allToJson : List (Node Float) → List Json
  | [] => []
  | n :: ns => n.toJson :: allToJson ns

end

end Node

namespace Scene

/-- The fields of a scene. -/
def fields : List String := ["background", "children"]

/-- A scene from the records of its roots. -/
def ofJson? [KeyDigest] (j : Json) : Option (Scene Float) := do
  guard (j.isRecord fields)
  let background ← j.optional fields "background" Color.ofJson?
  let roots ← j.defaulted fields "children" [] (toList? Node.ofJson?)
  return .new background roots

end Scene

end Solids
