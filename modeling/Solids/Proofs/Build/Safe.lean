import Solids.Proofs.Build.Coherent
import Solids.Proofs.Key.Made
import Solids.Proofs.Mesh.Booleans
import Solids.Proofs.Mesh.Shapes

/-!
# What a build can fail at

A tree is well formed if all meshes in it are, those that were written down and those that its parts
have (`Node.WellFormed`). Whatever else its parameters are, a build of such a tree through a cache
of well-formed meshes has a result, or faults for the extent of the model; and all meshes that it
makes, stores and leaves in the tree are well formed again, so that the next build finds the same
(`Node.WellFormed.build`, `Node.WellFormed.flattened`).

So a record that is read makes no build fail by its counts, coordinates and paths
(`Node.safe_build_of_ofJson?`), but by a mesh that was written down with an index that points
nowhere, as soon as another part reads through it (`Node.fault_unionRecord`).
-/

namespace Solids

/-! ## Trees and caches of well-formed meshes -/

/-- If the kind is a mesh that was written down, that is well formed. -/
def Kind.WellFormed {α : Type} (kind : Kind α) : Prop :=
  ∀ m, kind = .mesh m → m.WellFormed

/-- All meshes that are kept are well formed. -/
def Cache.WellFormed {α ω : Type} (c : Cache α ω) : Prop :=
  ∀ k m, c.mesh? k = some m → m.WellFormed

namespace Cache.WellFormed

variable {α ω : Type} {c : Cache α ω}

/-- The cache without entries keeps no mesh. -/
theorem new (limit : Nat) : (Cache.new limit : Cache α ω).WellFormed :=
  fun _ _ h => by cases h

/-- A well-formed mesh may be stored. -/
theorem store (hc : c.WellFormed) (k : CacheKey) {m : Mesh α} (hm : m.WellFormed) :
    (c.store k m).WellFormed := by
  intro k' m' h
  rcases mesh?_of_mesh?_store h with ⟨_, rfl⟩ | hold
  · exact hm
  · exact hc k' m' hold

end Cache.WellFormed

namespace Node

variable {α : Type}

/-- All meshes that were written down in the tree, and all that its parts have, are well formed. -/
def WellFormed (n : Node α) : Prop :=
  ∀ p ∈ n.parts, p.kind.WellFormed ∧ ∀ m, p.mesh = some m → m.WellFormed

/-- A tree is well formed if its root and its children are. -/
theorem wellFormed_iff {n : Node α} :
    n.WellFormed ↔ (n.kind.WellFormed ∧ ∀ m, n.mesh = some m → m.WellFormed) ∧
      ∀ c ∈ n.children, c.WellFormed :=
  forall_mem_parts

end Node

variable {α ω : Type} [Scalar α] {probe : Nat → Bool}

/-! ## Flattening -/

namespace Node

variable {n : Node α}

omit [Scalar α] in
/-- A part is drawn with a well-formed mesh if it has one. -/
theorem wellFormed_drawnMesh (h : ∀ m, n.mesh = some m → m.WellFormed) :
    n.drawnMesh.WellFormed := by
  unfold drawnMesh mesh?
  split
  · exact Mesh.wellFormed_empty
  · next m hm =>
    split at hm
    · split
      · exact h m hm
      · exact (h m hm).paint _
    · cases hm

/-- Parts are put together with a well-formed mesh if each is flattened to one. -/
theorem safe_mergeFlattened {m : Mesh α} {ns : List (Node α)} (hm : m.WellFormed)
    (h : ∀ n ∈ ns, Safe n.flattened Mesh.WellFormed) :
    Safe (mergeFlattened m ns) Mesh.WellFormed := by
  induction ns generalizing m with
  | nil =>
    rw [mergeFlattened]
    exact hm
  | cons n ns ih =>
    obtain ⟨hn, hns⟩ := List.forall_mem_cons.1 h
    rw [mergeFlattened]
    exact hn.bind fun _ hflat => (hm.merge hflat).bind fun _ hm' => ih hm' hns

/-- A well-formed tree is flattened to a well-formed mesh, unless an index grows too great. -/
theorem WellFormed.flattened (hn : n.WellFormed) : Safe n.flattened Mesh.WellFormed := by
  induction n using induction with
  | step n ih =>
    obtain ⟨⟨_, hmesh⟩, hchildren⟩ := wellFormed_iff.1 hn
    have hplace (m : Mesh α) (hm : m.WellFormed) :
        (if n.transform.isIdentity then m else m.transform n.transform.matrix).WellFormed := by
      split
      · exact hm
      · exact hm.transform _
    rw [flattened_eq]
    refine (Mesh.wellFormed_empty.merge (wellFormed_drawnMesh hmesh)).bind fun own hown => ?_
    dsimp only
    split
    · have hall := safe_mergeFlattened hown fun c hc => ih c hc (hchildren c hc)
      exact hall.bind fun m hm => hplace m hm
    · exact hplace own hown

end Node

/-! ## Making meshes -/

omit [Scalar α] in
/-- What stands for an error is well formed. -/
theorem Mesh.wellFormed_orEmpty {r : Except MeshError (Mesh α)}
    (h : ∀ m, r = .ok m → m.WellFormed) : (Mesh.orEmpty r).WellFormed := by
  cases r with
  | ok m => exact h m rfl
  | error e => exact wellFormed_empty

/-- Well-formed meshes are combined in a row, unless space cannot be divided or an index grows too
    great. -/
theorem Boolean.safe_combineAll (op : Boolean) {meshes : List (Mesh α)}
    (h : ∀ m ∈ meshes, m.WellFormed) : Safe (op.combineAll meshes) Mesh.WellFormed := by
  unfold combineAll
  split
  · exact Mesh.wellFormed_empty
  · next first rest =>
    obtain ⟨hfirst, hrest⟩ := List.forall_mem_cons.1 h
    split
    · exact Mesh.wellFormed_empty
    · split
      · exact Mesh.wellFormed_empty
      · exact .foldlM hfirst fun _ hm n hn => hm.combine op (hrest n (List.mem_of_mem_filter hn))

/-- A kind makes a well-formed mesh from well-formed children, or faults for the extent of what it
    is to make. -/
theorem Kind.WellFormed.construct {kind : Kind α} (hkind : kind.WellFormed)
    {children : List (Node α)} (hchildren : ∀ c ∈ children, c.WellFormed) :
    Safe (kind.construct children) Mesh.WellFormed := by
  have hflat : Safe (children.mapM Node.flattened) fun ms => ∀ m ∈ ms, m.WellFormed :=
    .mapM fun c hc => (hchildren c hc).flattened
  cases kind with
  | group | path _ | camera _ | light _ => exact Mesh.wellFormed_empty
  | cube => exact Primitive.wellFormed_cube
  | cylinder n => exact Mesh.wellFormed_orEmpty fun m => Primitive.wellFormed_of_cylinder
  | cone n => exact Mesh.wellFormed_orEmpty fun m => Primitive.wellFormed_of_cone
  | sphere n => exact (Primitive.safe_sphere n).bind fun r hr => Mesh.wellFormed_orEmpty hr
  | extrude paths options =>
    unfold Kind.construct Extrusion.construct
    dsimp only
    split
    · exact Mesh.WellFormed.mergeAll (List.forall_mem_map.2 fun p _ => p.wellFormed_extrude)
    · refine Mesh.WellFormed.mergeAll fun m hm => ?_
      obtain ⟨profile, _, hm⟩ := List.mem_flatMap.1 hm
      obtain ⟨rail, _, rfl⟩ := List.mem_map.1 hm
      exact profile.wellFormed_extrudeAlong rail _ _
  | lathe paths n =>
    exact Mesh.WellFormed.mergeAll (List.forall_mem_map.2 fun p _ =>
      Mesh.wellFormed_orEmpty fun m => Path.wellFormed_of_lathe)
  | loft paths => exact Path.wellFormed_loft paths
  | fill paths =>
    exact Mesh.WellFormed.mergeAll (List.forall_mem_map.2 fun p _ => p.wellFormed_fill)
  | hull points =>
    exact hflat.bind fun ms _ => Mesh.wellFormed_orEmpty fun m => wellFormed_of_hullOf
  | combination op => exact hflat.bind fun ms hms => op.safe_combineAll hms
  | mesh m => exact hkind m rfl

omit [Scalar α] in
/-- Meshes without vertices are put together to one. -/
theorem Mesh.mergeAll_eq_empty {ms : List (Mesh α)} (h : ∀ m ∈ ms, m = .empty) :
    mergeAll ms = .ok .empty := by
  induction ms with
  | nil => rfl
  | cons m ms ih =>
    obtain ⟨rfl, hms⟩ := List.forall_mem_cons.1 h
    exact ih hms

/-- A round shape in too few segments is made without polygons. -/
theorem Kind.construct_of_lt_minSegments {n : UInt32} (hn : n.toNat < minSegments)
    (paths : List (Path α)) {kind : Kind α}
    (hkind : kind ∈ [.cylinder n, .cone n, .sphere n, .lathe paths n]) (cs : List (Node α)) :
    kind.construct cs = .ok .empty := by
  simp only [List.mem_cons, List.not_mem_nil, or_false] at hkind
  rcases hkind with rfl | rfl | rfl | rfl
  · rw [construct, Primitive.cylinder, if_pos hn, Mesh.orEmpty]
  · rw [construct, Primitive.cone, if_pos hn, Mesh.orEmpty]
  · rw [construct, Primitive.sphere, if_pos hn]
    rfl
  · refine Mesh.mergeAll_eq_empty (List.forall_mem_map.2 fun p _ => ?_)
    rw [Path.lathe, if_pos hn, Mesh.orEmpty]

/-! ## Building -/

namespace Node

/-- What is left by a computation that builds is well formed, both the trees and the cache. -/
def Leaves {β : Type} (P : β → Prop) (r : Except Fault (Bool × β × Site α ω)) : Prop :=
  Safe r fun r => P r.2.1 ∧ r.2.2.cache.WellFormed

/-- A part is finished with a well-formed mesh, unless that cannot be made. -/
theorem safe_finish {n : Node α} {s : Site α ω} (hn : n.WellFormed) (hs : s.cache.WellFormed) :
    Safe (s.finish n) fun r => r.1.WellFormed ∧ r.2.cache.WellFormed := by
  obtain ⟨⟨hkind, hmesh⟩, hchildren⟩ := wellFormed_iff.1 hn
  rw [Site.finish]
  split
  · refine (hkind.construct hchildren).bind fun m hm => ⟨wellFormed_iff.2 ⟨⟨hkind, ?_⟩, hchildren⟩,
      hs.store n.key hm⟩
    intro m' hm'
    cases hm'
    exact hm
  · exact ⟨wellFormed_iff.2 ⟨⟨hkind, hmesh⟩, hchildren⟩, hs⟩

/-- Builds of well-formed parts leave them well formed if each does. -/
theorem safe_buildAll {ns : List (Node α)} {s : Site α ω} (hns : ∀ n ∈ ns, n.WellFormed)
    (hs : s.cache.WellFormed)
    (h : ∀ n ∈ ns, ∀ s : Site α ω, s.cache.WellFormed → Leaves WellFormed (n.build probe s)) :
    Leaves (fun ns' => ∀ n ∈ ns', n.WellFormed) (buildAll probe ns s) := by
  induction ns generalizing s with
  | nil =>
    rw [buildAll]
    exact ⟨fun _ hn => absurd hn List.not_mem_nil, hs⟩
  | cons n ns ih =>
    obtain ⟨hn, htail⟩ := List.forall_mem_cons.1 hns
    obtain ⟨hbuild, hbuilds⟩ := List.forall_mem_cons.1 h
    rw [buildAll]
    split
    · exact ⟨hns, hs⟩
    · refine (hbuild { s with polls := s.polls + 1 } hs).bind ?_
      rintro ⟨done, n', s'⟩ ⟨hn', hs'⟩
      cases done with
      | false => exact ⟨List.forall_mem_cons.2 ⟨hn', htail⟩, hs'⟩
      | true =>
        refine (ih htail hs' hbuilds).bind ?_
        rintro ⟨done, ns', s''⟩ ⟨hns', hs''⟩
        exact ⟨List.forall_mem_cons.2 ⟨hn', hns'⟩, hs''⟩

section Children

variable {n : Node α} (hn : n.WellFormed) (hall : ∀ s : Site α ω, s.cache.WellFormed →
  Leaves (fun ns => ∀ c ∈ ns, c.WellFormed) (buildAll probe n.children s))
include hn hall

/-- A build of the children that are drawn leaves a well-formed tree. -/
theorem safe_buildDrawn {s : Site α ω} (hs : s.cache.WellFormed) :
    Leaves WellFormed (n.buildDrawn probe s) := by
  have hself := (wellFormed_iff.1 hn).1
  rw [buildDrawn]
  split
  · refine (hall s hs).bind ?_
    rintro ⟨done, cs, s'⟩ ⟨hcs, hs'⟩
    exact ⟨wellFormed_iff.2 ⟨hself, hcs⟩, hs'⟩
  · exact ⟨hn, hs⟩

/-- A build of the children and of the mesh leaves a well-formed tree. -/
theorem safe_buildAnew {s : Site α ω} (hs : s.cache.WellFormed) :
    Leaves WellFormed (n.buildAnew probe s) := by
  have hself := (wellFormed_iff.1 hn).1
  rw [buildAnew]
  refine (hall s hs).bind ?_
  rintro ⟨done, cs, s'⟩ ⟨hcs, hs'⟩
  have hstate (state : BuildState) : WellFormed { n with state, children := cs } :=
    wellFormed_iff.2 ⟨hself, hcs⟩
  cases done with
  | false => exact ⟨hstate .unbuilt, hs'⟩
  | true => exact (safe_finish (hstate .building) hs').bind fun r hr => hr

end Children

/-- A build of a well-formed tree through a cache of well-formed meshes has a result, or faults for
    the extent of the model. It leaves both well formed. -/
theorem WellFormed.build {n : Node α} (hn : n.WellFormed) {s : Site α ω}
    (hs : s.cache.WellFormed) : Leaves WellFormed (n.build probe s) := by
  induction n using induction generalizing s with
  | step n ih =>
    obtain ⟨⟨hkind, hmesh⟩, hchildren⟩ := wellFormed_iff.1 hn
    have hall (s : Site α ω) (hs : s.cache.WellFormed) :=
      safe_buildAll hchildren hs fun c hc s hs => ih c hc (hchildren c hc) hs
    have hlookup : (s.lookup n).2.cache.WellFormed := fun k m hm =>
      hs k m (mesh?_lookup s n k ▸ hm)
    rw [build_eq]
    split_ifs
    · exact safe_buildDrawn hn hall hs
    · refine safe_buildDrawn (n := { n with mesh := (s.lookup n).1, state := .built })
        (wellFormed_iff.2 ⟨⟨hkind, fun m hm => ?_⟩, hchildren⟩) hall hlookup
      exact hs n.key m (mesh?_of_lookup hm)
    · exact safe_buildAnew hn hall hlookup

/-! ## Records -/

section Records

variable [KeyDigest]

/-- A tree that was read is well formed if the meshes that were written down in it are. -/
theorem wellFormed_of_ofJson? {j : Json} {n : Node Float} (hread : ofJson? j = some n)
    (hn : ∀ p ∈ n.parts, p.kind.WellFormed) : n.WellFormed := by
  have hmesh : ∀ p ∈ n.parts, p.mesh = none :=
    ofJson?_induction (P := fun n => ∀ p ∈ n.parts, p.mesh = none)
      (fun _ _ _ _ _ _ hcs => forall_mem_parts.2 ⟨rfl, hcs⟩) hread
  exact fun p hp => ⟨hn p hp, fun m hm => by cases (hmesh p hp).symm.trans hm⟩

/-- A build of a tree that was read, in which every mesh that was written down is well formed, has a
    result whatever all other parameters are, and however it is stopped; or it faults because two
    counts exceed 32 bits together, or because a division of space does not end. Any number of
    segments will do, and too few of them make no polygons. -/
theorem safe_build_of_ofJson? {j : Json} {n : Node Float} (hread : ofJson? j = some n)
    (hn : ∀ p ∈ n.parts, ∀ m, p.kind = .mesh m → m.WellFormed) (probe : Nat → Bool)
    {c : Cache Float ω} (hc : c.WellFormed) :
    ((∃ done n' s, n.build probe { cache := c } = .ok (done, n', s) ∧
        n'.WellFormed ∧ s.cache.WellFormed) ∨
      (∃ i j, n.build probe { cache := c } = .error (.overflow i j) ∧
        2 ^ 32 ≤ i.toNat + j.toNat) ∨
      n.build probe { cache := c } = .error .endlessDivision) ∧
    ∀ (segments : UInt32) (paths : List (Path Float)), segments.toNat < minSegments →
      ∀ kind ∈ [.cylinder segments, .cone segments, .sphere segments, .lathe paths segments],
        ∀ cs, Kind.construct kind cs = .ok .empty := by
  refine ⟨?_, fun segments paths hfew kind hkind cs =>
    kind.construct_of_lt_minSegments hfew paths hkind cs⟩
  have hsafe : Leaves WellFormed (n.build probe { cache := c }) :=
    (wellFormed_of_ofJson? hread hn).build hc
  cases hbuild : n.build probe { cache := c } with
  | ok r =>
    rw [hbuild] at hsafe
    exact .inl ⟨r.1, r.2.1, r.2.2, rfl, hsafe⟩
  | error e =>
    rw [hbuild] at hsafe
    cases e with
    | overflow i j => exact .inr (.inl ⟨i, j, rfl, hsafe⟩)
    | endlessDivision => exact .inr (.inr rfl)
    | vertex _ | triangle _ | color _ | reversedSpan _ _ => exact hsafe.elim

end Records

/-! ## A union of a mesh that was written down -/

/-- What a computation faulted at, if it did. -/
def fault? {β : Type} (r : Except Fault β) : Option Fault :=
  match r with
  | .ok _ => none
  | .error e => some e

/-- A computation that faulted has no result. -/
theorem eq_error_of_fault? {β : Type} {r : Except Fault β} {e : Fault} (h : fault? r = some e) :
    r = .error e := by
  cases r with
  | ok x => cases h
  | error e' => exact congrArg _ (Option.some.inj h)

/-- The record of a mesh of one triangle over the given vertices. -/
def triangleRecord (vertices : List Json) : Json :=
  .object [("type", .object [("kind", .text "mesh"), ("mesh", .object
    [("vertices", .list vertices), ("triangles", .list [.list [.int 0, .int 1, .int 2]])])])]

/-- The record of a cube. -/
def cubeRecord : Json := .object [("type", .object [("kind", .text "cube")])]

/-- The record of a union of the triangle and a cube. -/
def unionRecord (vertices : List Json) : Json :=
  .object [("type", .object [("kind", .text "union")]),
    ("children", .list [triangleRecord vertices, cubeRecord])]

/-- The record of the point at the origin. -/
def originRecord : Json := .list [.real 0.0, .real 0.0, .real 0.0]

section Mixing

attribute [local instance] KeyDigest.mixing

/-- A part of a kind that was read without anything else. -/
def plain (kind : Kind Float) (children : List (Node Float)) : Node Float :=
  .make kind .identity .default none none children

/-- A mesh of one triangle over a number of points at the origin. -/
def triangleOver (n : Nat) : Mesh Float :=
  { vertices := Array.replicate n ⟨0.0, 0.0, 0.0⟩, triangles := [⟨0, 1, 2⟩] }

/-- The union is read if the triangle is. -/
theorem ofJson?_unionRecord {vertices : List Json} {m : Mesh Float}
    (h : ofJson? (triangleRecord vertices) = some (plain (.mesh m) [])) :
    ofJson? (unionRecord vertices) =
      some (plain (.combination .union) [plain (.mesh m) [], plain .cube []]) := by
  have hcube : ofJson? cubeRecord = some (plain .cube []) := by
    rw [ofJson?]
    rfl
  rw [ofJson?]
  change (do
    let children ← [triangleRecord vertices, cubeRecord].attach.mapM fun x => ofJson? x.1
    return plain (.combination .union) children : Option (Node Float)) = _
  simp only [List.attach_cons, List.attach_nil, List.map_nil, List.map_cons, List.mapM_cons,
    List.mapM_nil, h, hcube]
  rfl

/-- The union of a triangle over three vertices is built, or faults for its extent. -/
theorem safe_unionRecord : ∃ n : Node Float,
    ofJson? (unionRecord (List.replicate 3 originRecord)) = some n ∧
      ((∃ done n' s, n.build (fun _ => false) { cache := (.new 0 : Cache Float Unit) } =
          .ok (done, n', s) ∧ n'.WellFormed ∧ s.cache.WellFormed) ∨
        (∃ i j, n.build (fun _ => false) { cache := (.new 0 : Cache Float Unit) } =
          .error (.overflow i j) ∧ 2 ^ 32 ≤ i.toNat + j.toNat) ∨
        n.build (fun _ => false) { cache := (.new 0 : Cache Float Unit) } =
          .error .endlessDivision) := by
  have htriangle : ofJson? (triangleRecord (List.replicate 3 originRecord)) =
      some (plain (.mesh (triangleOver 3)) []) := by
    rw [ofJson?]
    rfl
  have hread := ofJson?_unionRecord htriangle
  refine ⟨_, hread, (safe_build_of_ofJson? hread (fun p hp m hm => ?_) _ (.new 0)).1⟩
  change p ∈ [plain (.combination .union) [plain (.mesh (triangleOver 3)) [], plain .cube []],
    plain (.mesh (triangleOver 3)) [], plain .cube []] at hp
  simp only [List.mem_cons, List.not_mem_nil, or_false] at hp
  rcases hp with rfl | rfl | rfl
  · cases hm
  · cases hm
    decide
  · cases hm

/-- The record of the union of a triangle that names two vertices that are not there is read, but
    its build faults. -/
theorem fault_unionRecord : ∃ n : Node Float,
    ofJson? (unionRecord [originRecord]) = some n ∧
      n.build (fun _ => false) { cache := (.new 0 : Cache Float Unit) } =
        .error (.vertex 1) := by
  have htriangle : ofJson? (triangleRecord [originRecord]) =
      some (plain (.mesh (triangleOver 1)) []) := by
    rw [ofJson?]
    rfl
  refine ⟨_, ofJson?_unionRecord htriangle, eq_error_of_fault? ?_⟩
  decide +kernel

end Mixing

end Node

end Solids
