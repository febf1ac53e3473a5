import Solids.Proofs.Build.Course
import Solids.Proofs.Key.Made

/-!
# Parts between builds

Whatever was done to a tree, between the calls every part of it is *settled* (`Node.Settled`): its
key is the one that follows from it, it is not in the middle of a build, and it has a mesh exactly
if it is built and its kind has one. So are the parts of scenes, their cameras and their lights
(`settled_between_builds`).

A build changes nothing of a tree but how far parts are built, and their meshes, and what is built
stays as it is (`Node.Became`, `Node.keeps_of_build`).
-/

namespace Solids

variable {α ω : Type}

namespace Node

/-! ## What stays in a build -/

/-- A part is the same before and after a build, but for how far it and those below it are built,
    and if it was built it still is, with the same mesh. -/
structure Became (p p' : Node α) : Prop where
  fresh_eq : p'.fresh = p.fresh
  isBuilt : p.isBuilt = true → p'.isBuilt = true
  mesh_eq : p.isBuilt = true → p'.mesh = p.mesh

/-- The parts of one tree became those of another, one by one. -/
def Keeps (n n' : Node α) : Prop := List.Forall₂ Became n.parts n'.parts

/-- A tree keeps what it is. -/
theorem Keeps.refl (n : Node α) : n.Keeps n :=
  List.forall₂_same.2 fun _ _ => ⟨rfl, id, fun _ => rfl⟩

/-- The root of a tree that is kept is kept. -/
theorem Keeps.became {n n' : Node α} (h : n.Keeps n') : n.Became n' := by
  rw [Keeps, parts_eq, parts_eq] at h
  exact (List.forall₂_cons.1 h).1

/-- Trees that are kept are the same but for how far they are built. -/
theorem map_fresh_of_keeps {ns ns' : List (Node α)} (h : List.Forall₂ Keeps ns ns') :
    ns'.map fresh = ns.map fresh := by
  rw [← List.forall₂_eq_eq_eq, List.forall₂_map_left_iff, List.forall₂_map_right_iff]
  exact h.flip.imp fun _ _ hn => Keeps.became hn |>.fresh_eq

/-- The parts of trees that are kept are kept. -/
theorem forall₂_became {ns ns' : List (Node α)} (h : List.Forall₂ Keeps ns ns') :
    List.Forall₂ Became (partsOfAll ns) (partsOfAll ns') := by
  induction h with
  | nil => exact .nil
  | cons hn _ ih => exact List.rel_append hn ih

/-- A tree is kept if the children are and the root is not unbuilt. -/
theorem Keeps.of_children {n : Node α} {cs : List (Node α)} {state : BuildState}
    {mesh : Option (Mesh α)} (hroot : n.isBuilt = true → state = .built ∧ mesh = n.mesh)
    (h : List.Forall₂ Keeps n.children cs) : n.Keeps { n with state, mesh, children := cs } := by
  rw [Keeps, parts_eq, parts_eq]
  refine .cons ⟨?_, fun hbuilt => ?_, fun hbuilt => (hroot hbuilt).2⟩ (forall₂_became h)
  · calc fresh { n with state, mesh, children := cs }
      _ = fresh { n with children := cs } := fresh_update { n with children := cs } state mesh
      _ = n.fresh := fresh_with_children (map_fresh_of_keeps h)
  · obtain ⟨rfl, _⟩ := hroot hbuilt
    rfl

/-- A build keeps a tree. -/
theorem keeps_of_build [Scalar α] {probe : Nat → Bool} {n n' : Node α} {s s' : Site α ω}
    {done : Bool} (h : n.build probe s = .ok (done, n', s')) : n.Keeps n' := by
  induction n using induction generalizing s done n' s' with
  | step n ih =>
    have hall {s s' : Site α ω} {done : Bool} {cs : List (Node α)}
        (h : buildAll probe n.children s = .ok (done, cs, s')) :
        List.Forall₂ Keeps n.children cs :=
      (allEnd_of_buildAll h).forall₂ Keeps.refl fun c hc _ _ _ _ hb => ih c hc hb
    have hroot {state : BuildState} {mesh : Option (Mesh α)} (hunbuilt : n.isBuilt = false)
        (hbuilt : n.isBuilt = true) : state = .built ∧ mesh = n.mesh :=
      absurd (hunbuilt.symm.trans hbuilt) Bool.false_ne_true
    cases ends_of_build h with
    | built hbuilt h =>
      cases h with
      | plain _ => exact .refl n
      | drawn _ hcs => exact .of_children (fun _ => ⟨of_decide_eq_true hbuilt, rfl⟩) (hall hcs)
    | found hunbuilt _ h =>
      cases h with
      | plain _ => exact .of_children (hroot hunbuilt) (List.forall₂_same.2 fun c _ => .refl c)
      | drawn _ hcs => exact .of_children (hroot hunbuilt) (hall hcs)
    | stopped hunbuilt _ hcs => exact .of_children (hroot hunbuilt) (hall hcs)
    | finished hunbuilt _ hcs hfin =>
      cases hfin with
      | constructed _ _ => exact .of_children (hroot hunbuilt) (hall hcs)
      | plain _ => exact .of_children (hroot hunbuilt) (hall hcs)

/-! ## Parts at rest -/

/-- A part is not in the middle of a build, and has a mesh exactly if it is built and its kind has
    one. -/
structure AtRest (p : Node α) : Prop where
  state_ne : p.state ≠ .building
  isSome_mesh_iff : p.mesh.isSome = true ↔ p.isBuilt = true ∧ p.kind.hasOwnMesh = true

/-- All parts of the tree are at rest. -/
def Rested (n : Node α) : Prop := ∀ p ∈ n.parts, p.AtRest

/-- A tree is at rest if its root is and its children are. -/
theorem rested_iff {n : Node α} : n.Rested ↔ n.AtRest ∧ ∀ c ∈ n.children, c.Rested :=
  forall_mem_parts

/-- A part that is not built and has no mesh is at rest. -/
theorem atRest_of_unbuilt {p : Node α} (hstate : p.state = .unbuilt) (hmesh : p.mesh = none) :
    p.AtRest := by
  refine ⟨by simp [hstate], ?_⟩
  simp [hmesh, isBuilt, hstate]

/-- A part that is built is at rest if it has a mesh exactly if its kind has one. -/
theorem atRest_of_built {p : Node α} (hstate : p.state = .built)
    (hmesh : p.mesh.isSome = p.kind.hasOwnMesh) : p.AtRest := by
  refine ⟨by simp [hstate], ?_⟩
  simp [hmesh, isBuilt, hstate]

/-- A part at rest that is not built has no mesh. -/
theorem AtRest.mesh_eq_none {p : Node α} (h : p.AtRest) (hunbuilt : p.isBuilt = false) :
    p.mesh = none := by
  rw [← Option.isNone_iff_eq_none, ← Option.isSome_eq_false_iff, ← Bool.not_eq_true,
    h.isSome_mesh_iff, hunbuilt]
  exact fun h => Bool.false_ne_true h.1

/-- A part for which a mesh is found is of a kind that has one. -/
theorem hasOwnMesh_of_lookup {s : Site α ω} {n : Node α} {m : Mesh α}
    (h : (s.lookup n).1 = some m) : n.kind.hasOwnMesh = true := by
  rw [Site.lookup] at h
  split at h
  · assumption
  · cases h

variable [Scalar α] {probe : Nat → Bool}

/-- A build leaves a tree at rest. -/
theorem rested_of_build {n n' : Node α} {s s' : Site α ω} {done : Bool} (hn : n.Rested)
    (h : n.build probe s = .ok (done, n', s')) : n'.Rested := by
  induction n using induction generalizing s done n' s' with
  | step n ih =>
    obtain ⟨hself, hchildren⟩ := rested_iff.1 hn
    have hall {s s' : Site α ω} {done : Bool} {cs : List (Node α)}
        (h : buildAll probe n.children s = .ok (done, cs, s')) : ∀ c ∈ cs, c.Rested :=
      (allEnd_of_buildAll h).keeps hchildren fun c hc _ _ _ _ hb hrest => ih c hc hrest hb
    have hdrawn {r n' : Node α} {s s' : Site α ω} {done : Bool} (hcs : r.children = n.children)
        (hroot : r.AtRest) (h : DrawnEnds probe r s done n' s') : n'.Rested := by
      cases h with
      | plain _ => exact rested_iff.2 ⟨hroot, hcs ▸ hchildren⟩
      | drawn _ h => exact rested_iff.2 ⟨⟨hroot.state_ne, hroot.isSome_mesh_iff⟩, hall (hcs ▸ h)⟩
    cases ends_of_build h with
    | built _ h => exact hdrawn rfl hself h
    | @found _ _ _ m _ hm h =>
      have hroot : AtRest { n with mesh := some m, state := .built } :=
        atRest_of_built rfl (hasOwnMesh_of_lookup hm).symm
      exact hdrawn (r := { n with mesh := some m, state := .built }) rfl hroot h
    | stopped hunbuilt _ hcs =>
      exact rested_iff.2 ⟨atRest_of_unbuilt rfl (hself.mesh_eq_none hunbuilt), hall hcs⟩
    | finished hunbuilt _ hcs hfin =>
      cases hfin with
      | constructed hown _ => exact rested_iff.2 ⟨atRest_of_built rfl hown.symm, hall hcs⟩
      | plain hplain =>
        refine rested_iff.2 ⟨atRest_of_built rfl ?_, hall hcs⟩
        exact (congrArg Option.isSome (hself.mesh_eq_none hunbuilt)).trans hplain.symm

section Made

variable [KeyDigest]

/-- A part at rest with children at rest is so when its key is renewed. -/
theorem rested_rekey {n : Node α} (hself : n.AtRest) (hchildren : ∀ c ∈ n.children, c.Rested) :
    n.rekey.Rested := by
  rw [rekey]
  split
  · exact rested_iff.2 ⟨hself, hchildren⟩
  · exact rested_iff.2 ⟨atRest_of_unbuilt rfl rfl, hchildren⟩

/-- However a tree was made, it is at rest. -/
theorem Made.rested {n : Node α} (h : n.Made) : n.Rested := by
  induction h with
  | new kind =>
    exact rested_iff.2 ⟨atRest_of_unbuilt rfl rfl, fun c hc => absurd hc List.not_mem_nil⟩
  | read kind transform material name span _ ih =>
    exact rested_iff.2 ⟨atRest_of_unbuilt rfl rfl, ih⟩
  | withTransform transform _ ih =>
    obtain ⟨hself, hchildren⟩ := rested_iff.1 ih
    exact rested_rekey ⟨hself.state_ne, hself.isSome_mesh_iff⟩ hchildren
  | withMaterial material _ ih =>
    obtain ⟨hself, hchildren⟩ := rested_iff.1 ih
    exact rested_rekey ⟨hself.state_ne, hself.isSome_mesh_iff⟩ hchildren
  | withChildren _ _ ih ihs =>
    have hself := (rested_iff.1 ih).1
    exact rested_rekey ⟨hself.state_ne, hself.isSome_mesh_iff⟩ ihs
  | withName name _ ih =>
    obtain ⟨hself, hchildren⟩ := rested_iff.1 ih
    exact rested_iff.2 ⟨⟨hself.state_ne, hself.isSome_mesh_iff⟩, hchildren⟩
  | withSpan span _ ih =>
    obtain ⟨hself, hchildren⟩ := rested_iff.1 ih
    exact rested_iff.2 ⟨⟨hself.state_ne, hself.isSome_mesh_iff⟩, hchildren⟩
  | child _ hc ih => exact (rested_iff.1 ih).2 _ hc
  | build _ hbuild ih => exact rested_of_build ih hbuild

/-- A part between builds: its key is the one that follows from it and from its children's keys, it
    is not in the middle of a build, and it has a mesh exactly if it is built and its kind has
    one. -/
structure Settled (p : Node α) : Prop extends AtRest p where
  key_eq : p.key = p.computedKey

/-- However a tree was made, its parts are settled. -/
theorem Made.settled {n : Node α} (h : n.Made) {p : Node α} (hp : p ∈ n.parts) : p.Settled :=
  ⟨h.rested p hp, h.wellKeyed p hp⟩

/-- A part of a tree was made in one of the ways, too. -/
theorem Made.part {n p : Node α} (h : n.Made) (hp : p ∈ n.parts) : p.Made := by
  induction n using induction with
  | step n ih =>
    rcases mem_parts.1 hp with rfl | ⟨c, hc, hp⟩
    · exact h
    · exact ih c hc (h.child hc) hp

/-- Trees that were made are so after a build of them all. -/
theorem made_of_buildAll {ns ns' : List (Node α)} {s s' : Site α ω} {done : Bool}
    (hns : ∀ n ∈ ns, n.Made) (h : buildAll probe ns s = .ok (done, ns', s')) :
    ∀ n ∈ ns', n.Made :=
  (allEnd_of_buildAll h).keeps hns fun _ _ _ _ _ _ hb hmade => hmade.build hb

end Made

/-! ## Scenes -/

/-- The placed parts of trees are their parts if that holds of each tree. -/
theorem map_fst_placedAll {ns : List (Node α)}
    (h : ∀ n ∈ ns, ∀ outer, (n.placed outer).map Prod.fst = n.parts) (outer : Transform α) :
    (placedAll outer ns).map Prod.fst = partsOfAll ns := by
  induction ns with
  | nil => rw [placedAll, partsOfAll, List.map_nil]
  | cons n ns ih =>
    obtain ⟨hn, hns⟩ := List.forall_mem_cons.1 h
    rw [placedAll, partsOfAll, List.map_append, hn, ih hns]

/-- The placed parts of a tree are its parts. -/
theorem map_fst_placed (n : Node α) (outer : Transform α) :
    (n.placed outer).map Prod.fst = n.parts := by
  induction n using induction generalizing outer with
  | step n ih =>
    have hchildren := map_fst_placedAll ih
    rw [parts_eq, descendants, ← hchildren (outer.followedBy n.transform)]
    cases n
    rw [placed, List.map_cons]

end Node

namespace Scene

variable [Scalar α] {probe : Nat → Bool}

/-- A build of a scene keeps its roots, and leaves all else as it is. -/
theorem keeps_of_build {scene scene' : Scene α} {s s' : Site α ω} {done : Bool}
    (h : scene.build probe s = .ok (done, scene', s')) :
    scene' = { scene with roots := scene'.roots } ∧
      List.Forall₂ Node.Keeps scene.roots scene'.roots := by
  obtain ⟨⟨done, roots, s'⟩, hroots, h⟩ := bind_eq_ok_iff.1 h
  cases h
  exact ⟨rfl, (Node.allEnd_of_buildAll hroots).forall₂ Node.Keeps.refl
    fun _ _ _ _ _ _ hb => Node.keeps_of_build hb⟩

variable [KeyDigest]

/-- The scene was made of trees that were made in one of the ways there are, and built in some
    number of steps. -/
inductive Made : Scene α → Prop
  | new (background : Option Color) {roots : List (Node α)} :
      (∀ n ∈ roots, n.Made) → Made (Scene.new background roots)
  /-- A scene after a build, whether that came to the end or not. -/
  | build {ω : Type} {scene scene' : Scene α} {s s' : Site α ω} {probe : Nat → Bool} {done : Bool} :
      Made scene → scene.build probe s = .ok (done, scene', s') → Made scene'

/-- The roots of a scene and its marks were made in one of the ways there are. -/
theorem Made.made {scene : Scene α} (h : scene.Made) :
    ∀ n ∈ scene.roots ++ scene.cameras ++ scene.lights, n.Made := by
  induction h with
  | @new background roots hroots =>
    have hmark (marked : Kind α → Bool) (n : Node α)
        (hn : n ∈ ((Node.placedAll .identity roots).filter fun p => marked p.1.kind).map
          fun p => p.1.withTransform p.2) : n.Made := by
      obtain ⟨⟨p, place⟩, hp, rfl⟩ := List.mem_map.1 hn
      have hpart := List.mem_map_of_mem (f := Prod.fst) (List.mem_of_mem_filter hp)
      rw [Node.map_fst_placedAll fun n _ => n.map_fst_placed] at hpart
      obtain ⟨root, hroot, hp⟩ := Node.mem_partsOfAll.1 hpart
      exact .withTransform place ((hroots root hroot).part hp)
    rw [List.forall_mem_append, List.forall_mem_append]
    exact ⟨⟨hroots, hmark Kind.isCamera⟩, hmark Kind.isLight⟩
  | build _ hbuild ih =>
    obtain ⟨⟨done, roots, s'⟩, hroots, h⟩ := bind_eq_ok_iff.1 hbuild
    cases h
    rw [List.forall_mem_append, List.forall_mem_append] at ih ⊢
    exact ⟨⟨Node.made_of_buildAll ih.1.1 hroots, ih.1.2⟩, ih.2⟩

/-- What is read from a record was made. -/
theorem made_of_ofJson? {j : Json} {scene : Scene Float} (h : ofJson? j = some scene) :
    scene.Made := by
  obtain ⟨_, _, h⟩ := Option.bind_eq_some_iff.1 h
  obtain ⟨background, _, h⟩ := Option.bind_eq_some_iff.1 h
  obtain ⟨roots, hroots, h⟩ := Option.bind_eq_some_iff.1 h
  cases h
  refine .new background fun n hn => ?_
  rw [Json.defaulted] at hroots
  split at hroots
  · cases hroots
    cases hn
  · next records _ =>
    cases records with
    | list xs =>
      obtain ⟨x, _, hx⟩ := exists_of_mem_mapM hroots hn
      exact Node.made_of_ofJson? hx
    | _ => cases hroots

end Scene

/-! ## Between builds -/

/-- However trees and scenes were made and built, to the end or not, all their parts are settled,
    and so are those of a scene's cameras and lights. A build, whatever tree it starts from, changes
    nothing but how far parts are built, and their meshes, and a part that was built still is, with
    the same mesh. -/
theorem settled_between_builds [Scalar α] [KeyDigest] :
    (∀ n : Node α, n.Made → ∀ p ∈ n.parts, p.Settled) ∧
      (∀ scene : Scene α, scene.Made → ∀ n ∈ scene.roots ++ scene.cameras ++ scene.lights,
        n.Made ∧ ∀ p ∈ n.parts, p.Settled) ∧
      (∀ (probe : Nat → Bool) (n n' : Node α) (s s' : Site α ω) (done : Bool),
        n.build probe s = .ok (done, n', s') → n.Keeps n') ∧
      ∀ (probe : Nat → Bool) (scene scene' : Scene α) (s s' : Site α ω) (done : Bool),
        scene.build probe s = .ok (done, scene', s') →
          scene' = { scene with roots := scene'.roots } ∧
            List.Forall₂ Node.Keeps scene.roots scene'.roots := by
  refine ⟨fun n hn p hp => hn.settled hp, fun scene hscene n hn => ?_,
    fun probe n n' s s' done h => Node.keeps_of_build h,
    fun probe scene scene' s s' done h => Scene.keeps_of_build h⟩
  have hmade := hscene.made n hn
  exact ⟨hmade, fun p hp => hmade.settled hp⟩

/-- A group of a camera and a cube. -/
def filmedCube [KeyDigest] : Node Float :=
  (Node.new .group).withChildren [Node.new (.camera {}), Node.new .cube]

section Mixing

attribute [local instance] KeyDigest.mixing

/-- A scene of the group whose build is stopped before the cube has the camera built, and all of it
    is settled. -/
theorem settled_filmedCube : ∃ (scene : Scene Float) (s : Site Float Unit),
    (Scene.new none [filmedCube]).build (· == 2) { cache := .new 0 } = .ok (false, scene, s) ∧
      (∀ n ∈ scene.roots ++ scene.cameras ++ scene.lights, ∀ p ∈ n.parts, p.Settled) ∧
      List.Forall₂ Node.Keeps [filmedCube] scene.roots := by
  have hmade : filmedCube.Made :=
    .withChildren (.new _) (List.forall_mem_cons.2 ⟨.new _, List.forall_mem_singleton.2 (.new _)⟩)
  have hscene : (Scene.new none [filmedCube]).Made :=
    .new none (List.forall_mem_singleton.2 hmade)
  obtain ⟨⟨scene, s⟩, hrun⟩ : ∃ r, (Scene.new none [filmedCube]).build (· == 2)
      ({ cache := .new 0 } : Site Float Unit) = .ok (false, r) :=
    exists_of_done? (by decide +kernel)
  obtain ⟨_, hsettled, _, hkeeps⟩ := settled_between_builds (α := Float) (ω := Unit)
  refine ⟨scene, s, hrun, fun n hn => ?_, (hkeeps _ _ _ _ _ _ hrun).2⟩
  exact (hsettled scene (hscene.build hrun) n hn).2

end Mixing

end Solids
