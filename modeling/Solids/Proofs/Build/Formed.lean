import Solids.Proofs.Build.Safe
import Solids.Proofs.Build.Session
import Solids.Proofs.Mesh.Reads
import Solids.Proofs.Node.Drawing

/-!
# Every mesh is well formed

Well-formed trees stay so through all builds (`Session.WellFormed.after`): whatever their parameters
are, the meshes that are built, those that could be made of the parts as they stand, and those that
are drawn are well formed. What faults does so for its extent, and never where a list is read.

The main statement, `Session.meshes_wellFormed`, also has what the walks through rings, hulls and
polygons leave unsaid: that rings have one length, that polygons have three vertices, and that all
indices lead back to the points which were meant.
-/

namespace Solids.Session

variable {α ω : Type} [Scalar α]

/-- The trees and the meshes in the cache are well formed. -/
structure WellFormed (w : Session α ω) : Prop where
  cache : w.cache.WellFormed
  roots : ∀ n ∈ w.roots, n.WellFormed

namespace WellFormed

variable {w : Session α ω} (h : w.WellFormed)
include h

/-- A call keeps a session well formed, or faults for the extent of a tree. -/
theorem call (c : Call) : Safe (w.call c) fun r => r.2.WellFormed := by
  obtain ⟨htrees, hscenes⟩ := forall_mem_roots.1 h.roots
  cases c with
  | tree i probe =>
    rw [Session.call]
    split
    · exact h
    · next n hi =>
      have hn := htrees n (List.mem_of_getElem? hi)
      refine (hn.build (s := { cache := w.cache }) h.cache).bind ?_
      rintro ⟨done, n', s⟩ ⟨hn', hs⟩
      exact ⟨hs, forall_mem_roots.2 ⟨forall_mem_set htrees i hn', hscenes⟩⟩
  | scene i probe =>
    rw [Session.call]
    split
    · exact h
    · next scene hi =>
      have hroots := hscenes scene (List.mem_of_getElem? hi)
      rw [Scene.build, bind_assoc]
      refine (Node.safe_buildAll (s := { cache := w.cache }) hroots h.cache
        fun n hn s hs => (hroots n hn).build hs).bind ?_
      rintro ⟨done, ns, s⟩ ⟨hns, hs⟩
      exact ⟨hs, forall_mem_roots.2 ⟨htrees, forall_mem_set hscenes i hns⟩⟩

/-- Calls keep a session well formed, or one faults for the extent of a tree. -/
theorem after (cs : List Call) : Safe (w.after cs) WellFormed := by
  induction cs generalizing w with
  | nil => exact h
  | cons c cs ih =>
    rw [Session.after]
    refine (h.call c).bind ?_
    rintro ⟨done, w'⟩ hw'
    exact ih hw'

omit [Scalar α] in
/-- All parts are well formed. -/
theorem part {p : Node α} (hp : p ∈ Node.partsOfAll w.roots) : p.WellFormed := by
  obtain ⟨n, hn, hp⟩ := Node.mem_partsOfAll.1 hp
  exact fun q hq => h.roots n hn q (Node.mem_parts_trans hq hp)

end WellFormed

end Solids.Session

namespace Solids

variable {α ω : Type} [Scalar α]

namespace Node

omit [Scalar α] in
/-- The meshes of a well-formed part that is built are well formed. -/
theorem WellFormed.mesh? {n : Node α} (hn : n.WellFormed) {m : Mesh α} (hm : n.mesh? = some m) :
    m.WellFormed := by
  rw [Node.mesh?] at hm
  exact (wellFormed_iff.1 hn).1.2 m (Option.ite_none_right_eq_some.1 hm).2

omit [Scalar α] in
/-- The meshes in a well-formed tree are well formed. -/
theorem WellFormed.meshesWellFormed {n : Node α} (hn : n.WellFormed) : n.MeshesWellFormed :=
  fun _ hp _ hm => WellFormed.mesh? (fun q hq => hn q (mem_parts_trans hq hp)) hm

end Node

namespace Session

open Sweep (Stitched)

/-- Whatever trees and scenes with well-formed meshes are built through a new cache, in any order,
    to the end or not, every mesh that is built, every mesh that a part as it stands has made of it,
    and every mesh that is drawn is well formed. What is drawn has a mesh unless that has more
    vertices than there are indices, and all else that faults does so for its extent.

    No list is read where it ends: sweeps stitch rings of one length, a ring for each point of a
    rail, and caps where they are due; faces, caps, hulls and fans are over the points that their
    indices lead to; and the polygons of a combination have three vertices. -/
theorem meshes_wellFormed :
    (∀ (limit : Nat) (trees : List (Node α)) (scenes : List (Scene α)) (calls : List Call),
      (∀ n ∈ trees ++ scenes.flatMap (·.roots), n.WellFormed) →
        Safe ((start limit trees scenes : Session α ω).after calls) fun w =>
          (∀ p ∈ Node.partsOfAll w.roots,
            (∀ m, p.mesh? = some m → m.WellFormed) ∧
              Safe (p.kind.construct p.children) Mesh.WellFormed ∧
              Safe p.flattened Mesh.WellFormed ∧
              (Mesh.vertexTotal p.blocks ≤ UInt32.size → ∃ m, p.flattened = .ok m)) ∧
          ∀ scene ∈ w.scenes, Safe scene.merged Mesh.WellFormed ∧
            (Mesh.vertexTotal (Node.blocksOfAll scene.roots) ≤ UInt32.size →
              ∃ m, scene.merged = .ok m)) ∧
    (∀ (profile rail : Path α) (twist : α) (align : Alignment) (segments : UInt32)
      (profiles : List (Path α)),
        Stitched profile.extrude ∧ Stitched (profile.extrudeAlong rail twist align) ∧
          (∀ m, profile.lathe segments = .ok m → Stitched m) ∧ Stitched (Path.loft profiles) ∧
          ∀ points closed track railClosed, profile.ring? = some (points, closed) →
            rail.ring? = some (track, railClosed) →
              ∃ rings ends, profile.extrudeAlong rail twist align =
                  Sweep.stitch rings closed ends ∧ rings.length = track.length ∧
                (∀ ring ∈ rings, ring.length = points.length) ∧
                (closed = true → railClosed = false →
                  ∃ start finish, ends = .capped start finish)) ∧
    (∀ (rings : List (List (Vec3 α))) (closed : Bool) (ends : Sweep.Ends α),
      rings.flatten.length ≤ UInt32.size →
        (∀ width, (∀ ring ∈ rings, ring.length = width) → ∀ k j : Nat,
          ((Sweep.number 0 rings)[k]?.bind (·[j]?)) = (rings[k]?.bind (·[j]?)).map fun p =>
            { index := (k * width + j).toUInt32, position := p }) ∧
        ∀ f ∈ Sweep.faces (Sweep.number 0 rings) closed ends,
          Mesh.corners { vertices := rings.flatten.toArray } (f.map (·.index)) =
            .ok (Sweep.positions f)) ∧
    (∀ (cloud : Hull.Cloud α) (fs : List (Hull.Face cloud)), cloud.size ≤ UInt32.size →
      ∀ f ∈ fs, (Hull.toMesh cloud fs).corners
          (f.corners.map (Hull.usedPlaces cloud fs).idxOf).toIndices =
        .ok (f.corners.map cloud.point)) ∧
    (∀ (op : Boolean) (m n r : Mesh α), m.combine op n = .ok r →
      Mesh.Combined (fun p => 3 ≤ p.vertices.length) m n r) ∧
    ∀ ps : List (Polygon α), (Mesh.ofPolygons ps).vertexCount ≤ UInt32.size →
      (Mesh.ofPolygons ps).triangles.mapM (Mesh.ofPolygons ps).corners =
        .ok (ps.flatMap fun p => fan p.vertices) := by
  refine ⟨fun limit trees scenes calls hroots => ?_, ?_, ?_, ?_, ?_, ?_⟩
  · have hstart : (start limit trees scenes : Session α ω).WellFormed := ⟨.new limit, hroots⟩
    refine (hstart.after calls).imp fun w hw => ⟨fun p hp => ?_, fun scene hscene => ?_⟩
    · have hpart := hw.part hp
      obtain ⟨⟨hkind, _⟩, hchildren⟩ := Node.wellFormed_iff.1 hpart
      exact ⟨fun m => hpart.mesh?, hkind.construct hchildren, hpart.flattened, fun hsize =>
        ⟨_, (drawnAs_blocks.1 p hpart.meshesWellFormed).eq_ok hsize⟩⟩
    · have hscenes := (forall_mem_roots.1 hw.roots).2 scene hscene
      exact ⟨Node.safe_mergeFlattened Mesh.wellFormed_empty fun n hn => (hscenes n hn).flattened,
        fun hsize => ⟨_, (drawnAs_blocks.2 scene fun n hn =>
          (hscenes n hn).meshesWellFormed).eq_ok hsize⟩⟩
  · intro profile rail twist align segments profiles
    exact ⟨profile.stitched_extrude, profile.stitched_extrudeAlong rail twist align,
      fun m => Path.stitched_of_lathe, Path.stitched_loft profiles,
      fun _ _ _ _ hprofile hrail => Path.exists_extrudeAlong_eq hprofile hrail twist align⟩
  · intro rings closed ends hsize
    refine ⟨fun width hwidth k j => ?_, fun f hf => Sweep.corners_of_mem_faces hsize hf⟩
    rw [Sweep.getElem?_number hwidth, Nat.zero_add]
  · exact fun cloud fs hsize f hf => Hull.corners_toMesh hsize hf
  · intro op m n r hr
    -- The operands are read as triangles.
    have hthree (m : Mesh α) (ps : List (Polygon α)) (hps : m.polygons = .ok ps) :
        ∀ p ∈ ps, 3 ≤ p.vertices.length :=
      fun p hp => Nat.le_of_eq ((m.polygons_outcome.of_ok hps) p hp).1.symm
    exact (Mesh.combined Polygon.kept_three (hthree m) (hthree n) op).of_ok hr
  · exact fun ps hsize => Mesh.corners_ofPolygons hsize

section Mixing

attribute [local instance] KeyDigest.mixing

/-- A group of a triangle that was written down and of a cube. -/
def writtenPair : Node Float :=
  .plain .group [.plain (.mesh (Node.triangleOver 3)) [], .plain .cube []]

/-- The group is built, is stopped before the cube, and is built again. -/
def writtenCalls : List Call :=
  [.tree 0 fun polls => polls == 1, .tree 0 fun _ => false]

/-- The group is built in two calls, and its parts, what could be made of them, and what is drawn
    of them are well formed. -/
theorem meshes_wellFormed_writtenPair : writtenPair.WellFormed ∧
    ∃ w, (start 0 [writtenPair] [] : Session Float Unit).after writtenCalls = .ok w ∧
      ∀ p ∈ Node.partsOfAll w.roots, p.isBuilt = true ∧ (∀ m, p.mesh? = some m → m.WellFormed) ∧
        ∃ m, p.flattened = .ok m ∧ m.WellFormed := by
  have hpair : writtenPair.WellFormed := by
    intro p hp
    change p ∈ [writtenPair, .plain (.mesh (Node.triangleOver 3)) [], .plain .cube []] at hp
    simp only [List.mem_cons, List.not_mem_nil, or_false] at hp
    have hmesh : ∀ m, p.mesh = some m → m.WellFormed := by
      intro m hm
      rcases hp with rfl | rfl | rfl <;> cases hm
    refine ⟨fun m hm => ?_, hmesh⟩
    rcases hp with rfl | rfl | rfl
    · cases hm
    · cases hm
      decide
    · cases hm
  have hroots : ∀ n ∈ [writtenPair] ++ ([] : List (Scene Float)).flatMap (·.roots),
      n.WellFormed := by
    rw [List.flatMap_nil, List.append_nil]
    exact List.forall_mem_singleton.2 hpair
  have hafter {cs : List Call} {w : Session Float Unit} {p : Node Float}
      (hrun : (start 0 [writtenPair] []).after cs = .ok w) (hp : p ∈ Node.partsOfAll w.roots) :
      (∀ m, p.mesh? = some m → m.WellFormed) ∧ Safe p.flattened Mesh.WellFormed ∧
        (Mesh.vertexTotal p.blocks ≤ UInt32.size → ∃ m, p.flattened = .ok m) := by
    have hsafe := (meshes_wellFormed (α := Float) (ω := Unit)).1 0 [writtenPair] [] cs hroots
    rw [hrun] at hsafe
    obtain ⟨hmesh, _, hflat⟩ := hsafe.1 p hp
    exact ⟨hmesh, hflat⟩
  have hbuilt : (match (start 0 [writtenPair] [] : Session Float Unit).after writtenCalls with
      | .ok w => (Node.partsOfAll w.roots).all fun p =>
          p.isBuilt && decide (Mesh.vertexTotal p.blocks ≤ UInt32.size)
      | .error _ => false) = true := by decide +kernel
  cases hrun : (start 0 [writtenPair] [] : Session Float Unit).after writtenCalls with
  | ok w =>
    rw [hrun] at hbuilt
    refine ⟨hpair, w, rfl, fun p hp => ?_⟩
    obtain ⟨hmesh, hflat, hok⟩ := hafter hrun hp
    have hp' := List.all_eq_true.1 hbuilt p hp
    rw [Bool.and_eq_true, decide_eq_true_eq] at hp'
    obtain ⟨m, hm⟩ := hok hp'.2
    rw [hm] at hflat
    exact ⟨hp'.1, hmesh, m, hm, hflat⟩
  | error e =>
    rw [hrun] at hbuilt
    cases hbuilt

end Mixing

end Session

end Solids
