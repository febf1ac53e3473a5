import Solids.Build
import Solids.Proofs.Build.Frame

/-!
# Trees built alone

What a build is for, without all that makes it fast: all children are built, and then the mesh is
made from them (`Node.alone`). There is no cache, nothing is left out and nothing is interrupted.

A tree that is built alone depends on how it was made and not on how far it is built already
(`Node.alone_fresh`). Names and places in a text do not matter either (`Node.alone_unnamed`). The
meshes of parts are made from what their children look like, and so is what is drawn of a tree
(`Node.LooksLike`).
-/

namespace Solids

variable {α : Type} [Scalar α]

namespace Node

/-! ## What a tree looks like -/

/-- The trees look the same: they are in the same place and draw the same polygons in the same
    box. -/
structure LooksLike (n m : Node α) : Prop where
  transform_eq : n.transform = m.transform
  flattened_eq : n.flattened = m.flattened
  polygonCount_eq : n.polygonCount = m.polygonCount
  bounds_eq : n.bounds = m.bounds

section Congruence

variable {ns ms : List (Node α)} (h : List.Forall₂ LooksLike ns ms)
include h

/-- Trees that look the same flatten to the same meshes. -/
theorem map_flattened_congr : ns.map flattened = ms.map flattened := by
  rw [← List.forall₂_eq_eq_eq, List.forall₂_map_left_iff, List.forall₂_map_right_iff]
  exact h.imp fun _ _ hc => hc.flattened_eq

/-- The meshes of trees that look the same are merged to the same mesh. -/
theorem mergeFlattened_congr (m : Mesh α) : mergeFlattened m ns = mergeFlattened m ms := by
  induction h generalizing m with
  | nil => rfl
  | cons hc _ ih =>
    rw [mergeFlattened, mergeFlattened, hc.flattened_eq]
    simp only [ih]

/-- Trees that look the same have as many polygons. -/
theorem polygonCountAll_congr : polygonCountAll ns = polygonCountAll ms := by
  induction h with
  | nil => rfl
  | cons hc _ ih => rw [polygonCountAll, polygonCountAll, hc.polygonCount_eq, ih]

/-- The boxes of trees that look the same extend a box to the same. -/
theorem unionBounds_congr (b : Bounds α) : unionBounds b ns = unionBounds b ms := by
  induction h generalizing b with
  | nil => rfl
  | cons hc _ ih => rw [unionBounds, unionBounds, hc.transform_eq, hc.bounds_eq, ih]

/-- A mesh is made from what the children look like. -/
theorem construct_congr (kind : Kind α) : kind.construct ns = kind.construct ms := by
  have hmapM : ns.mapM flattened = ms.mapM flattened := by
    have hid (ns : List (Node α)) : ns.mapM flattened = (ns.map flattened).mapM id := by
      rw [List.mapM_map]
      rfl
    rw [hid, hid, map_flattened_congr h]
  cases kind <;> simp only [Kind.construct, hmapM]

end Congruence

/-- The polygons drawn of a tree in terms of its root. -/
theorem flattened_eq (n : Node α) : n.flattened = (do
    let own ← Mesh.empty.merge n.drawnMesh
    let all ← if n.kind.rendersChildren then mergeFlattened own n.children else pure own
    return if n.transform.isIdentity then all else all.transform n.transform.matrix) := by
  cases n
  rw [flattened]

/-- The number of polygons drawn of a tree in terms of its root. -/
theorem polygonCount_eq {α : Type} (n : Node α) : n.polygonCount =
    (n.mesh?.map Mesh.triangleCount).getD 0
      + if n.kind.rendersChildren then polygonCountAll n.children else 0 := by
  cases n
  rw [polygonCount]

/-- The box of a tree in terms of its root. -/
theorem bounds_eq (n : Node α) : n.bounds =
    let own := match n.mesh? with
      | some m => m.bounds
      | none => n.kind.bounds
    if n.kind.rendersChildren || !n.isBuilt then unionBounds own n.children else own := by
  obtain ⟨_, _, _, _, _, _⟩ := n
  unfold bounds
  rfl

/-- What is drawn of a tree follows from the root and from what the children that count look
    like. -/
theorem LooksLike.of_children {n m : Node α} (hkind : n.kind = m.kind)
    (htransform : n.transform = m.transform) (hmaterial : n.material = m.material)
    (hbuilt : n.isBuilt = m.isBuilt) (hmesh : n.mesh? = m.mesh?)
    (hchildren : n.kind.rendersChildren = true ∨ n.isBuilt = false →
      List.Forall₂ LooksLike n.children m.children) : n.LooksLike m where
  transform_eq := htransform
  flattened_eq := by
    have hdrawn : n.drawnMesh = m.drawnMesh := by rw [drawnMesh, drawnMesh, hmesh, hmaterial]
    rw [Node.flattened_eq, Node.flattened_eq, hdrawn, ← htransform, ← hkind]
    by_cases hrenders : n.kind.rendersChildren = true
    · simp only [mergeFlattened_congr (hchildren (.inl hrenders))]
    · simp only [hrenders, Bool.false_eq_true, if_false]
  polygonCount_eq := by
    rw [Node.polygonCount_eq, Node.polygonCount_eq, hmesh, ← hkind]
    split
    · next hrenders => rw [polygonCountAll_congr (hchildren (.inl hrenders))]
    · rfl
  bounds_eq := by
    rw [Node.bounds_eq, Node.bounds_eq, hmesh, ← hkind, ← hbuilt]
    dsimp only
    split
    · next hcounts =>
      rw [Bool.or_eq_true, Bool.not_eq_true'] at hcounts
      exact unionBounds_congr (hchildren hcounts) _
    · rfl

/-! ## Building alone -/

/-- The own mesh of a kind from the built children, if it has one. -/
def ownMesh (kind : Kind α) (children : List (Node α)) : Except Fault (Option (Mesh α)) :=
  if kind.hasOwnMesh then some <$> kind.construct children else .ok none

mutual

/-- The tree built by itself: all children, and then the mesh. -/
def alone : Node α → Except Fault (Node α)
  | n@{ kind, children, .. } => do
    let children ← aloneAll children
    let mesh ← ownMesh kind children
    return { n with children, mesh, state := .built }

/-- The trees of a list built each by itself. -/
def aloneAll : List (Node α) → Except Fault (List (Node α))
  | [] => return []
  | n :: ns => do return (← n.alone) :: (← aloneAll ns)

end

/-- A tree has a result if its children have and its mesh can be made from them. -/
theorem alone_eq_ok_iff {n b : Node α} :
    n.alone = .ok b ↔ ∃ bs, aloneAll n.children = .ok bs ∧ ∃ mesh, ownMesh n.kind bs = .ok mesh ∧
      b = { n with children := bs, mesh, state := .built } := by
  cases n
  rw [alone, bind_eq_ok_iff]
  refine exists_congr fun bs => and_congr_right fun _ => ?_
  rw [bind_eq_ok_iff]
  refine exists_congr fun mesh => and_congr_right fun _ => ?_
  exact ⟨fun h => (Except.ok.inj h).symm, fun h => congrArg _ h.symm⟩

/-- The trees of a list have results if each has. -/
theorem aloneAll_eq_ok_iff {ns bs : List (Node α)} :
    aloneAll ns = .ok bs ↔ List.Forall₂ (fun n b => n.alone = .ok b) ns bs := by
  induction ns generalizing bs with
  | nil =>
    rw [aloneAll, List.forall₂_nil_left_iff]
    exact ⟨fun h => (Except.ok.inj h).symm, fun h => congrArg _ h.symm⟩
  | cons n ns ih =>
    rw [aloneAll, List.forall₂_cons_left_iff]
    simp only [bind_eq_ok_iff, ih, pure, Except.pure, Except.ok.injEq]
    constructor
    · rintro ⟨b, hb, bs, hbs, rfl⟩
      exact ⟨b, bs, hb, hbs, rfl⟩
    · rintro ⟨b, bs, hb, hbs, rfl⟩
      exact ⟨b, hb, bs, hbs, rfl⟩

/-- To build trees alone, it does not matter how far they are built, if it does not for each. -/
theorem aloneAll_map_fresh {ns : List (Node α)} (h : ∀ n ∈ ns, n.fresh.alone = n.alone) :
    aloneAll (ns.map fresh) = aloneAll ns := by
  induction ns with
  | nil => rfl
  | cons n ns ih =>
    obtain ⟨hn, hns⟩ := List.forall_mem_cons.1 h
    rw [List.map_cons, aloneAll, aloneAll, hn, ih hns]

/-- To build a tree alone, it does not matter how far it is built. -/
theorem alone_fresh (n : Node α) : n.fresh.alone = n.alone := by
  induction n using induction with
  | step n ih =>
    have hchildren := aloneAll_map_fresh ih
    rw [fresh_eq]
    cases n
    rw [alone, alone, hchildren]

/-- Trees that were made as one have one result. -/
theorem alone_congr {n m : Node α} (h : n.fresh = m.fresh) : n.alone = m.alone := by
  rw [← alone_fresh, h, alone_fresh]

/-- Lists of trees that were made as one have one result. -/
theorem aloneAll_congr {ns ms : List (Node α)} (h : ns.map fresh = ms.map fresh) :
    aloneAll ns = aloneAll ms := by
  rw [← aloneAll_map_fresh fun n _ => n.alone_fresh, h, aloneAll_map_fresh fun n _ => n.alone_fresh]

/-! ## Names -/

mutual

/-- The tree without names and places in a text. -/
def unnamed : Node α → Node α
  | n@{ children, .. } => { n with children := unnamedAll children, name := none, span := none }

/-- The trees of a list without names and places in a text. -/
def unnamedAll : List (Node α) → List (Node α)
  | [] => []
  | n :: ns => n.unnamed :: unnamedAll ns

end

/-- To take the names from the trees of a list is to take them from each. -/
theorem unnamedAll_eq {α : Type} (ns : List (Node α)) : unnamedAll ns = ns.map unnamed := by
  induction ns with
  | nil => rfl
  | cons n ns ih => rw [unnamedAll, ih, List.map_cons]

/-- To take the names from a tree is to take them from the root and the children. -/
theorem unnamed_eq {α : Type} (n : Node α) :
    n.unnamed = { n with children := n.children.map unnamed, name := none, span := none } := by
  cases n
  rw [unnamed, unnamedAll_eq]

/-- A tree looks the same without names. -/
theorem looksLike_unnamed (n : Node α) : n.unnamed.LooksLike n := by
  induction n using induction with
  | step n ih =>
    rw [unnamed_eq]
    refine .of_children rfl rfl rfl rfl rfl fun _ => ?_
    rw [List.forall₂_map_left_iff, List.forall₂_same]
    exact ih

/-- The mesh of a part does not depend on names. -/
theorem ownMesh_unnamed (kind : Kind α) (ns : List (Node α)) :
    ownMesh kind (ns.map unnamed) = ownMesh kind ns := by
  have hlooks : List.Forall₂ LooksLike (ns.map unnamed) ns :=
    List.forall₂_map_left_iff.2 (List.forall₂_same.2 fun n _ => n.looksLike_unnamed)
  rw [ownMesh, ownMesh, construct_congr hlooks]

/-- To take the names from a tree and build it alone, or to build it and take the names away, is
    the same. -/
theorem alone_unnamed (n : Node α) : n.unnamed.alone = unnamed <$> n.alone := by
  have hlist (ns : List (Node α)) (h : ∀ n ∈ ns, n.unnamed.alone = unnamed <$> n.alone) :
      aloneAll (ns.map unnamed) = List.map unnamed <$> aloneAll ns := by
    induction ns with
    | nil => rfl
    | cons n ns ih =>
      obtain ⟨hn, hns⟩ := List.forall_mem_cons.1 h
      rw [List.map_cons, aloneAll, aloneAll, hn, ih hns]
      cases n.alone with
      | error e => rfl
      | ok b => cases aloneAll ns <;> rfl
  induction n using induction with
  | step n ih =>
    have hchildren := hlist n.children ih
    rw [unnamed_eq]
    cases n with
    | mk kind transform material name span children key state mesh =>
      rw [alone, alone, hchildren]
      cases aloneAll children with
      | error e => rfl
      | ok bs =>
        change (ownMesh kind (bs.map unnamed) >>= _) = unnamed <$> (ownMesh kind bs >>= _)
        rw [ownMesh_unnamed]
        cases ownMesh kind bs with
        | error e => rfl
        | ok m =>
          refine congrArg Except.ok ?_
          rw [unnamed_eq]

/-- Trees that differ in names alone get the same mesh. -/
theorem alone_mesh_of_unnamed_eq {n m b : Node α} (h : n.unnamed = m.unnamed)
    (hb : n.alone = .ok b) : ∃ b', m.alone = .ok b' ∧ b'.mesh = b.mesh := by
  have hm : unnamed <$> m.alone = .ok b.unnamed := by
    rw [← alone_unnamed, ← h, alone_unnamed, hb]
    rfl
  cases hm' : m.alone with
  | error e =>
    rw [hm'] at hm
    cases hm
  | ok b' =>
    rw [hm'] at hm
    have hmesh := congrArg Node.mesh (Except.ok.inj hm)
    rw [unnamed_eq, unnamed_eq] at hmesh
    exact ⟨b', rfl, hmesh⟩

end Node

end Solids
