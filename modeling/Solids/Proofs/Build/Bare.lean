import Solids.Proofs.Alike.Path
import Solids.Proofs.Build.Lasting
import Solids.Proofs.Build.Safe
import Solids.Proofs.Rounded.Hull

/-!
# Empty trees

A tree is empty if neither its root nor any part below describes geometry. Such a tree is drawn
without triangles, but it may have vertices: those of meshes that were written down without
triangles (`Node.looseVertices`). Paths that are too short make nothing, and operations find nothing
to work on; only a hull makes something of loose vertices, polygons around any four of them.

* `Session.empty_draws_nothing`: nothing is drawn of an empty tree, whatever is built, and no build
  of it faults, if no hull in it has four points together with the loose vertices of its children
  (`Node.FewPoints`). That the mesh of a part is without triangles is a rule for the meshes of empty
  trees alone (`Node.looseRule`), which lasts through all builds.
* `Node.empty_draws_hull`: a hull without points of its own is empty and draws four polygons, around
  the vertices of a mesh without triangles.
-/

namespace Solids

variable {α ω : Type}

/-! ## Meshes without triangles -/

/-- The mesh has no triangles, and no more vertices than a number. -/
structure Mesh.Loose (m : Mesh α) (k : Nat) : Prop where
  triangles_eq : m.triangles = []
  vertexCount_le : m.vertexCount ≤ k

namespace Mesh

variable {m n : Mesh α} {j k : Nat}

/-- The mesh without vertices has no triangles. -/
theorem loose_empty : (empty : Mesh α).Loose k := ⟨rfl, Nat.zero_le k⟩

/-- A mesh without triangles is empty. -/
theorem Loose.isEmpty (h : m.Loose k) : m.isEmpty = true := by
  rw [Mesh.isEmpty, h.triangles_eq]
  rfl

/-- Two meshes without triangles are merged to one. -/
theorem Loose.merge (hm : m.Loose j) (hn : n.Loose k) :
    Outcome (m.merge n) False fun r => r.Loose (j + k) := by
  rw [Mesh.merge, hn.triangles_eq, List.mapM_nil]
  refine ⟨by rw [hm.triangles_eq]; rfl, ?_⟩
  rw [vertexCount, Array.size_append]
  exact Nat.add_le_add hm.vertexCount_le hn.vertexCount_le

/-- A mesh without triangles has none in another color. -/
theorem Loose.paint (h : m.Loose k) (c : Rgba) : (m.paint c).Loose k :=
  ⟨h.triangles_eq, h.vertexCount_le⟩

variable [Scalar α]

/-- A mesh without triangles has none in another place. -/
theorem Loose.transform (h : m.Loose k) (a : Matrix α) : (m.transform a).Loose k := by
  have hmoved : Loose { m with vertices := m.vertices.map a.apply } k :=
    ⟨h.triangles_eq, (Array.size_map).trans_le h.vertexCount_le⟩
  rw [Mesh.transform]
  split
  · exact ⟨congrArg (List.map Triangle.flip) h.triangles_eq, hmoved.vertexCount_le⟩
  · exact hmoved

end Mesh

/-! ## Loose vertices -/

/-- The number of vertices in the mesh of a kind that is empty, over children with as many as are
    told: those of a mesh that was written down, and those of a first operand that nothing is cut
    from. -/
def Kind.looseVertices (kind : Kind α) (below : List Nat) : Nat :=
  match kind with
  | .mesh m => m.vertexCount
  | .combination .union | .combination .xor => below.headD 0
  | _ => 0

/-- A hull has fewer than four points, together with as many vertices of its children as are
    told. -/
def Kind.FewPoints (kind : Kind α) (below : List Nat) : Prop :=
  match kind with
  | .hull points => points.length + below.sum < 4
  | _ => True

instance (below : List Nat) : (kind : Kind α) → Decidable (kind.FewPoints below)
  | .hull points => inferInstanceAs (Decidable (points.length + below.sum < 4))
  | .group | .cone _ | .cylinder _ | .sphere _ | .cube | .extrude _ _ | .lathe _ _ | .loft _
  | .fill _ | .combination _ | .path _ | .mesh _ | .camera _ | .light _ =>
    inferInstanceAs (Decidable True)

namespace Node

mutual

/-- The number of vertices that an empty tree is drawn with. -/
def looseVertices : Node α → Nat
  | { kind, children, .. } =>
    kind.looseVertices (looseCounts children)
      + if kind.rendersChildren then (looseCounts children).sum else 0

/-- The numbers of vertices that empty trees are drawn with. -/
def looseCounts : List (Node α) → List Nat
  | [] => []
  | n :: ns => n.looseVertices :: looseCounts ns

end

/-- No hull in the tree has four points, together with the loose vertices of its children. -/
def FewPoints (n : Node α) : Prop :=
  ∀ p ∈ n.parts, p.kind.FewPoints (p.children.map looseVertices)

instance (n : Node α) : Decidable n.FewPoints :=
  inferInstanceAs (Decidable (∀ p ∈ n.parts, p.kind.FewPoints (p.children.map looseVertices)))

/-- To count the vertices of trees is to count those of each. -/
theorem looseCounts_eq (ns : List (Node α)) : looseCounts ns = ns.map looseVertices := by
  induction ns with
  | nil => rfl
  | cons n ns ih => rw [looseCounts, ih, List.map_cons]

/-- The vertices of a tree are those of its own mesh and of the children drawn beside it. -/
theorem looseVertices_eq (n : Node α) : n.looseVertices =
    n.kind.looseVertices (n.children.map looseVertices)
      + if n.kind.rendersChildren then (n.children.map looseVertices).sum else 0 := by
  cases n
  rw [looseVertices, looseCounts_eq]

/-- To count vertices, it does not matter how far a tree is built. -/
theorem looseVertices_fresh (n : Node α) : n.fresh.looseVertices = n.looseVertices := by
  induction n using induction with
  | step n ih =>
    have hcounts : (n.children.map fresh).map looseVertices = n.children.map looseVertices := by
      rw [List.map_map]
      exact List.map_congr_left ih
    rw [looseVertices_eq, looseVertices_eq n, fresh_kind, fresh_children, hcounts]

/-- The vertices of unbuilt children are those of the children. -/
theorem map_looseVertices_fresh (n : Node α) :
    n.fresh.children.map looseVertices = n.children.map looseVertices := by
  rw [fresh_children, List.map_map]
  exact List.map_congr_left fun c _ => c.looseVertices_fresh

/-- All trees of a list are empty if each is. -/
theorem allEmpty_eq [Scalar α] (ns : List (Node α)) : allEmpty ns = ns.all isEmpty := by
  induction ns with
  | nil => rfl
  | cons n ns ih => rw [allEmpty, ih, List.all_cons]

/-- A tree is empty if its kind is and its children are. -/
theorem isEmpty_eq [Scalar α] (n : Node α) :
    n.isEmpty = (n.kind.isEmpty && n.children.all isEmpty) := by
  cases n
  rw [isEmpty, allEmpty_eq]

variable [Scalar α]

/-- The tree is empty, and no hull in it has four points. -/
structure Bare (n : Node α) : Prop where
  isEmpty : n.isEmpty = true
  fewPoints : n.FewPoints

/-- A tree is bare if its root and its children are. -/
theorem bare_iff {n : Node α} :
    n.Bare ↔ (n.kind.isEmpty = true ∧ n.kind.FewPoints (n.children.map looseVertices)) ∧
      ∀ c ∈ n.children, c.Bare := by
  have hempty : n.isEmpty = true ↔ n.kind.isEmpty = true ∧ ∀ c ∈ n.children, c.isEmpty = true := by
    rw [isEmpty_eq, Bool.and_eq_true, List.all_eq_true]
  have hfew : n.FewPoints ↔ n.kind.FewPoints (n.children.map looseVertices) ∧
      ∀ c ∈ n.children, c.FewPoints := forall_mem_parts
  constructor
  · rintro ⟨hn, hpoints⟩
    obtain ⟨hkind, hchildren⟩ := hempty.1 hn
    obtain ⟨hself, hbelow⟩ := hfew.1 hpoints
    exact ⟨⟨hkind, hself⟩, fun c hc => ⟨hchildren c hc, hbelow c hc⟩⟩
  · rintro ⟨⟨hkind, hself⟩, hchildren⟩
    exact ⟨hempty.2 ⟨hkind, fun c hc => (hchildren c hc).isEmpty⟩,
      hfew.2 ⟨hself, fun c hc => (hchildren c hc).fewPoints⟩⟩

omit [Scalar α] in
/-- Where no mesh that was written down has vertices there are no loose ones. -/
theorem looseVertices_eq_zero {n : Node α}
    (h : ∀ p ∈ n.parts, ∀ m, p.kind = .mesh m → m.vertexCount = 0) : n.looseVertices = 0 := by
  induction n using induction with
  | step n ih =>
    obtain ⟨hself, hchildren⟩ := forall_mem_parts.1 h
    have hbelow : n.children.map looseVertices = List.replicate n.children.length 0 :=
      List.map_eq_replicate_iff.2 fun c hc => ih c hc (hchildren c hc)
    have hown : n.kind.looseVertices (List.replicate n.children.length 0) = 0 := by
      cases hkind : n.kind with
      | mesh m => exact hself m hkind
      | combination op => cases op <;> cases n.children.length <;> rfl
      | _ => rfl
    rw [looseVertices_eq, hbelow, hown, List.sum_replicate, nsmul_zero, ite_self, Nat.add_zero]

/-- An empty tree in which no mesh that was written down has vertices is bare. -/
theorem bare_of_isEmpty {n : Node α} (hn : n.isEmpty = true)
    (h : ∀ p ∈ n.parts, ∀ m, p.kind = .mesh m → m.vertexCount = 0) : n.Bare := by
  induction n using induction with
  | step n ih =>
    rw [isEmpty_eq, Bool.and_eq_true, List.all_eq_true] at hn
    obtain ⟨hkind, hempty⟩ := hn
    obtain ⟨-, hchildren⟩ := forall_mem_parts.1 h
    have hbelow : (n.children.map looseVertices).sum = 0 := List.sum_eq_zero <|
      List.forall_mem_map.2 fun c hc => looseVertices_eq_zero (hchildren c hc)
    refine bare_iff.2 ⟨⟨hkind, ?_⟩, fun c hc => ih c hc (hempty c hc) (hchildren c hc)⟩
    cases hk : n.kind with
    | hull points =>
      rw [hk, Kind.isEmpty, decide_eq_true_eq] at hkind
      rw [Kind.FewPoints, hbelow]
      exact hkind
    | _ => trivial

/-- It does not matter how far a bare tree is built. -/
theorem bare_fresh {n : Node α} : n.fresh.Bare ↔ n.Bare := by
  induction n using induction with
  | step n ih =>
    rw [bare_iff, bare_iff, fresh_kind, map_looseVertices_fresh, fresh_children,
      List.forall_mem_map]
    exact and_congr_right fun _ => forall₂_congr ih

end Node

/-! ## Alike trees -/

section Alike

variable [Scalar α]

/-- Of alike paths none or some are lines. -/
theorem Kind.noLine_alike {ps qs : List (Path α)} (h : List.Forall₂ Path.Alike ps qs) :
    noLine ps = noLine qs :=
  all_eq_of_rel (fun _ _ hp => hp.isEmpty_eq) h

/-- Alike kinds are empty both or neither. -/
theorem Kind.Alike.isEmpty_eq {k k' : Kind α} (h : k.Alike k') : k.isEmpty = k'.isEmpty := by
  rcases k with _ | n | n | n | _ | ⟨paths, options⟩ | ⟨paths, n⟩ | paths | paths | points | op |
    p | m | c | l <;>
  rcases k' with _ | n' | n' | n' | _ | ⟨paths', options'⟩ | ⟨paths', n'⟩ | paths' | paths' |
    points' | op' | p' | m' | c' | l' <;>
  try first
    | exact h.elim
    | rfl
  · obtain ⟨hpaths, hrails, _⟩ := h
    have hnone : options.along.isEmpty = options'.along.isEmpty := by
      generalize options.along = rails, options'.along = rails' at hrails
      cases hrails <;> rfl
    simp only [isEmpty, noLine_alike hpaths, noLine_alike hrails, hnone]
  · exact noLine_alike h.1
  · exact noLine_alike h
  · exact noLine_alike h
  · simp only [isEmpty, List.Forall₂.length_eq h]
  · exact Path.Alike.isEmpty_eq h
  · exact congrArg List.isEmpty h.2.1

/-- Alike kinds have as many loose vertices. -/
theorem Kind.Alike.looseVertices_eq {k k' : Kind α} (h : k.Alike k') (below : List Nat) :
    k.looseVertices below = k'.looseVertices below := by
  cases k <;> cases k' <;> first
    | exact h.elim
    | rfl
    | exact congrArg (fun op => (Kind.combination op : Kind α).looseVertices below) h
    | exact h.1.length_eq

/-- Alike kinds render their children both or neither. -/
theorem Kind.Alike.rendersChildren_eq {k k' : Kind α} (h : k.Alike k') :
    k.rendersChildren = k'.rendersChildren := by
  cases k <;> cases k' <;> first
    | exact h.elim
    | rfl

/-- Alike kinds have few points both or neither. -/
theorem Kind.Alike.fewPoints_iff {k k' : Kind α} (h : k.Alike k') (below : List Nat) :
    k.FewPoints below ↔ k'.FewPoints below := by
  cases k <;> cases k' <;> first
    | exact h.elim
    | exact Iff.rfl
    | simp only [FewPoints, List.Forall₂.length_eq h]

namespace Node

/-- Trees that are alike have as many loose vertices. -/
theorem Alike.looseVertices_eq {n m : Node α} (h : n.Alike m) :
    n.looseVertices = m.looseVertices := by
  refine alike_induction (motive := fun n m => n.looseVertices = m.looseVertices)
    (fun n m hkind hchildren => ?_) h
  rw [Node.looseVertices_eq, Node.looseVertices_eq m, map_eq_of_rel (fun _ _ => id) hchildren,
    hkind.looseVertices_eq, hkind.rendersChildren_eq]

/-- The children of trees that are alike have as many loose vertices, one by one. -/
theorem Alike.map_looseVertices_eq {n m : Node α} (h : n.Alike m) :
    n.children.map looseVertices = m.children.map looseVertices :=
  map_eq_of_rel (fun _ _ => Alike.looseVertices_eq) (alike_iff.1 h).2.2.2

/-- A tree that is like a bare one is bare. -/
theorem Alike.bare {n m : Node α} (h : n.Alike m) (hn : n.Bare) : m.Bare := by
  induction n using induction generalizing m with
  | step n ih =>
    obtain ⟨hkind, _, _, hchildren⟩ := alike_iff.1 h
    obtain ⟨⟨hempty, hfew⟩, hbelow⟩ := bare_iff.1 hn
    refine bare_iff.2 ⟨⟨hkind.isEmpty_eq ▸ hempty, ?_⟩, fun d hd => ?_⟩
    · rw [← h.map_looseVertices_eq]
      exact (hkind.fewPoints_iff _).1 hfew
    · have hmem := (List.forall₂_and_left _ _).2 ⟨fun c hc => hc, hchildren⟩
      obtain ⟨c, _, hc, hcd⟩ := exists_mem_of_forall₂ hmem hd
      exact ih c hc hcd (hbelow c hc)

end Node

end Alike

variable [Scalar α]

/-! ## What is drawn of empty trees -/

namespace Node

section Flattened

variable {ns : List (Node α)}
  (h : ∀ n ∈ ns, Outcome n.flattened False fun m => m.Loose n.looseVertices)
include h

/-- Trees without triangles are merged to a mesh without triangles. -/
theorem loose_mergeFlattened {m : Mesh α} {k : Nat} (hm : m.Loose k) :
    Outcome (mergeFlattened m ns) False fun r =>
      r.Loose (k + (ns.map looseVertices).sum) := by
  induction ns generalizing m k with
  | nil =>
    rw [mergeFlattened]
    exact hm
  | cons n ns ih =>
    obtain ⟨hn, hns⟩ := List.forall_mem_cons.1 h
    rw [mergeFlattened, List.map_cons, List.sum_cons, ← Nat.add_assoc]
    exact hn.bind id fun r hr => (hm.merge hr).bind id fun m' hm' => ih hns hm'

/-- Trees without triangles are flattened to meshes without triangles, one by one. -/
theorem loose_mapM_flattened : Outcome (ns.mapM flattened) False fun ms =>
    List.Forall₂ Mesh.Loose ms (ns.map looseVertices) := by
  induction ns with
  | nil => exact .nil
  | cons n ns ih =>
    obtain ⟨hn, hns⟩ := List.forall_mem_cons.1 h
    rw [List.mapM_cons]
    exact hn.bind id fun m hm => (ih hns).bind id fun ms hms => .cons hm hms

end Flattened

/-- The mesh of a bare part has no triangles, and no vertices but the loose ones of its kind. -/
def looseRule (n : Node α) (m : Mesh α) : Prop :=
  n.Bare → m.Loose (n.kind.looseVertices (n.children.map looseVertices))

/-- The meshes of a bare tree have no triangles. -/
theorem Obeys.loose {n : Node α} (hn : n.Obeys looseRule) (hbare : n.Bare) {m : Mesh α}
    (hm : n.mesh? = some m) : m.Loose (n.kind.looseVertices (n.children.map looseVertices)) := by
  have hmesh : n.mesh = some m := (Option.ite_none_right_eq_some.1 hm).2
  have hloose := (obeys_iff.1 hn).1 m hmesh (bare_fresh.2 hbare)
  rwa [fresh_kind, map_looseVertices_fresh] at hloose

/-- A bare tree is drawn without triangles. -/
theorem loose_flattened {n : Node α} (hn : n.Obeys looseRule) (hbare : n.Bare) :
    Outcome n.flattened False fun m => m.Loose n.looseVertices := by
  induction n using induction with
  | step n ih =>
    have hchildren : ∀ c ∈ n.children, Outcome c.flattened False fun m =>
        m.Loose c.looseVertices := fun c hc =>
      ih c hc ((obeys_iff.1 hn).2 c hc) ((bare_iff.1 hbare).2 c hc)
    have hdrawn : n.drawnMesh.Loose (n.kind.looseVertices (n.children.map looseVertices)) := by
      rw [drawnMesh]
      split
      · exact Mesh.loose_empty
      · next m hm =>
        split
        · exact hn.loose hbare hm
        · exact (hn.loose hbare hm).paint _
    have hplaced {k : Nat} (m : Mesh α) (hm : m.Loose k) :
        (if n.transform.isIdentity then m else m.transform n.transform.matrix).Loose k := by
      split
      · exact hm
      · exact hm.transform _
    rw [flattened_eq, looseVertices_eq]
    refine ((Mesh.loose_empty (k := 0)).merge hdrawn).bind id fun own hown => ?_
    rw [Nat.zero_add] at hown
    dsimp only
    split
    · exact (loose_mergeFlattened hchildren hown).bind id hplaced
    · exact hplaced own hown

/-- No polygon is counted in a bare tree. -/
theorem polygonCount_eq_zero {n : Node α} (hn : n.Obeys looseRule) (hbare : n.Bare) :
    n.polygonCount = 0 := by
  induction n using induction with
  | step n ih =>
    have hall {ns : List (Node α)} (h : ∀ c ∈ ns, c.polygonCount = 0) :
        polygonCountAll ns = 0 := by
      induction ns with
      | nil => rfl
      | cons c cs ihl =>
        obtain ⟨hc, hcs⟩ := List.forall_mem_cons.1 h
        rw [polygonCountAll, hc, ihl hcs]
    have hchildren : polygonCountAll n.children = 0 := hall fun c hc =>
      ih c hc ((obeys_iff.1 hn).2 c hc) ((bare_iff.1 hbare).2 c hc)
    have hown : (n.mesh?.map Mesh.triangleCount).getD 0 = 0 := by
      cases hm : n.mesh? with
      | none => rfl
      | some m => exact List.length_eq_zero_iff.2 (hn.loose hbare hm).triangles_eq
    rw [polygonCount_eq, hown, hchildren, ite_self]

end Node

/-! ## What is made of empty trees -/

omit [Scalar α] in
/-- Where no path is a line there are no usable ones. -/
theorem Path.usable_eq_nil {paths : List (Path α)} (h : Kind.noLine paths = true) :
    usable paths = [] := by
  refine List.filter_eq_nil_iff.2 fun p hp => ?_
  rw [List.all_eq_true.1 h p hp]
  exact Bool.false_ne_true

/-- A tube through no lines is empty. -/
theorem Path.loft_eq_empty {paths : List (Path α)} (h : Kind.noLine paths = true) :
    loft paths = .empty := by
  have hnone : paths.filterMap ring? = [] := List.filterMap_eq_nil_iff.2 fun p hp => by
    rw [ring?, if_pos (List.all_eq_true.1 h p hp)]
  rw [loft, hnone]
  rfl

/-- An extrusion of no lines, or along none, is empty. -/
theorem Extrusion.construct_eq_empty {options : Extrusion α} {paths : List (Path α)}
    (h : (Kind.extrude paths options).isEmpty = true) : options.construct paths = .ok .empty := by
  rw [Kind.isEmpty, Bool.or_eq_true, Bool.and_eq_true, Bool.not_eq_true'] at h
  rw [construct]
  rcases h with h | ⟨halong, hrails⟩
  · rw [Path.usable_eq_nil h]
    split <;> rfl
  · rw [if_neg (Bool.eq_false_iff.1 halong), Path.usable_eq_nil hrails]
    refine Mesh.mergeAll_eq_empty fun m hm => ?_
    obtain ⟨_, _, hm⟩ := List.mem_flatMap.1 hm
    cases hm

/-- Meshes without triangles are combined to one, with no other vertices than the first of them
    has. -/
theorem Boolean.loose_combineAll (op : Boolean) {ms : List (Mesh α)} {counts : List Nat}
    (h : List.Forall₂ Mesh.Loose ms counts) :
    Outcome (op.combineAll ms) False fun m =>
      m.Loose ((Kind.combination op : Kind α).looseVertices counts) := by
  cases h with
  | nil => exact Mesh.loose_empty
  | @cons first k rest counts hfirst hrest =>
    have hskipped : rest.filter (fun m => !m.isEmpty) = [] := by
      refine List.filter_eq_nil_iff.2 fun m hm => ?_
      obtain ⟨_, _, hloose⟩ := exists_mem_of_forall₂ hrest.flip hm
      rw [Mesh.Loose.isEmpty hloose]
      exact Bool.false_ne_true
    rw [combineAll, hskipped, List.any_cons, hfirst.isEmpty, Bool.true_or]
    cases op with
    | union | xor => exact hfirst
    | difference | intersection | stencil => exact Mesh.loose_empty

/-- A hull of fewer than four points and vertices is empty. -/
theorem loose_hullOf {points : List (Vec3 α)} {ms : List (Mesh α)} {counts : List Nat}
    (h : List.Forall₂ Mesh.Loose ms counts) (hfew : points.length + counts.sum < 4) :
    Mesh.orEmpty (hullOf points ms) = .empty := by
  have hvertices : (ms.flatMap fun m => m.vertices.toList).length ≤ counts.sum := by
    clear hfew
    induction h with
    | nil => exact Nat.le_refl 0
    | cons hm _ ih =>
      rw [List.flatMap_cons, List.length_append, List.sum_cons]
      exact Nat.add_le_add hm.vertexCount_le ih
  rw [hullOf]
  split
  · rfl
  · have hsize := Hull.size_distinct_le (points ++ ms.flatMap fun m => m.vertices.toList)
    rw [List.length_append] at hsize
    rw [convexHull, dif_pos (by omega), Mesh.orEmpty]

/-- The mesh of an empty kind is made of children without triangles, and has none. -/
theorem Kind.loose_construct {kind : Kind α} (hempty : kind.isEmpty = true) {ns : List (Node α)}
    (hfew : kind.FewPoints (ns.map Node.looseVertices))
    (h : ∀ n ∈ ns, Outcome n.flattened False fun m => m.Loose n.looseVertices) :
    Outcome (kind.construct ns) False fun m =>
      m.Loose (kind.looseVertices (ns.map Node.looseVertices)) := by
  cases kind with
  | group | path _ | camera _ | light _ => exact Mesh.loose_empty
  | cube | cone _ | cylinder _ | sphere _ => cases hempty
  | extrude paths options =>
    rw [construct, Extrusion.construct_eq_empty hempty]
    exact Mesh.loose_empty
  | lathe paths _ | fill paths =>
    rw [construct, Path.usable_eq_nil hempty]
    exact Mesh.loose_empty
  | loft paths =>
    rw [construct, Path.loft_eq_empty hempty]
    exact Mesh.loose_empty
  | hull points =>
    refine (Node.loose_mapM_flattened h).bind id fun ms hms => ?_
    change (Mesh.orEmpty (hullOf points ms)).Loose 0
    rw [loose_hullOf hms hfew]
    exact Mesh.loose_empty
  | combination op => exact (Node.loose_mapM_flattened h).bind id fun ms => op.loose_combineAll
  | mesh m => exact ⟨List.isEmpty_iff.1 hempty, Nat.le_refl _⟩

/-- That meshes of bare parts have no triangles lasts, and meshes of them are always made. -/
theorem Node.lasting_looseRule [KeyDigest] {ns : List (Node α)} (hmade : ∀ n ∈ ns, n.Made)
    (hfits : ∀ n ∈ ns, n.Fits) (hfree : CollisionFree (partsOfAll ns)) :
    Lasting (partsOfAll ns) (fun n => ¬n.Bare) looseRule where
  of_key_eq u hu v hv hkey m hm hv' := by
    have halike := (hfree.key_eq_iff_alike (within_partsOfAll hmade hfits hv)
      (within_partsOfAll hmade hfits hu)).1 hkey.symm
    rw [(alike_iff.1 halike).1.looseVertices_eq, halike.map_looseVertices_eq]
    exact hm (halike.bare hv')
  construct n hchildren := by
    by_cases hbare : n.Bare
    · obtain ⟨⟨hempty, hfew⟩, hbelow⟩ := bare_iff.1 hbare
      refine (Kind.loose_construct hempty hfew fun c hc =>
        loose_flattened (hchildren c hc) (hbelow c hc)).imp False.elim fun m hm _ => ?_
      rwa [fresh_kind, map_looseVertices_fresh]
    · have hfresh : ¬n.fresh.Bare := mt bare_fresh.1 hbare
      exact (outcome_self _).imp (fun _ => hfresh) fun _ _ hn => absurd hn hfresh
  of_child n c hc hbare hn := hbare ((bare_iff.1 hn).2 c hc)

namespace Session

/-- Whatever trees and scenes are built through a new cache, in any order, to the end or not, no
    polygon is counted in any part that is empty, and none is drawn of it, if no hull below it has
    four points together with the loose vertices of its children. What is drawn has no vertices but
    the loose ones. Trees like this are built without faults. Every empty tree is one in which no
    mesh that was written down has vertices. -/
theorem empty_draws_nothing [KeyDigest] {limit : Nat} {trees : List (Node α)}
    {scenes : List (Scene α)}
    (hmade : ∀ n ∈ trees ++ scenes.flatMap (·.roots), n.Made ∧ n.fresh = n ∧ n.Fits)
    (hfree : Node.CollisionFree (Node.partsOfAll (trees ++ scenes.flatMap (·.roots))))
    {calls : List Call} {w : Session α ω} (hrun : (start limit trees scenes).after calls = .ok w) :
    (∀ p ∈ Node.partsOfAll w.roots, p.isEmpty = true → p.FewPoints →
      p.polygonCount = 0 ∧
        ∃ m, p.flattened = .ok m ∧ m.triangles = [] ∧ m.vertexCount ≤ p.looseVertices) ∧
      (∀ c, (∀ n ∈ w.called c, n.isEmpty = true ∧ n.FewPoints) → ∃ r, w.call c = .ok r) ∧
      ∀ n : Node α, n.isEmpty = true →
        (∀ p ∈ n.parts, ∀ m, p.kind = .mesh m → m.vertexCount = 0) → n.FewPoints := by
  have hrule := Node.lasting_looseRule (fun n hn => (hmade n hn).1)
    (fun n hn => (hmade n hn).2.2) hfree
  have hstart : (start limit trees scenes : Session α ω).Obeys Node.looseRule _ :=
    obeys_start fun n hn => (hmade n hn).2.1
  obtain ⟨hafter, -⟩ := hstart.after hrule hrun
  refine ⟨?_, ?_, fun n hn h => (Node.bare_of_isEmpty hn h).fewPoints⟩
  · intro p hp hempty hfew
    obtain ⟨n, hn, hp⟩ := Node.mem_partsOfAll.1 hp
    have hpart : p.Obeys Node.looseRule := fun q hq =>
      hafter.roots n hn q (Node.mem_parts_trans hq hp)
    obtain ⟨m, hm, hloose⟩ := (Node.loose_flattened hpart ⟨hempty, hfew⟩).exists_ok
    exact ⟨Node.polygonCount_eq_zero hpart ⟨hempty, hfew⟩, m, hm, hloose.triangles_eq,
      hloose.vertexCount_le⟩
  · intro c hc
    -- A call faults only if a tree that it is for is not bare.
    have hcall : Outcome (w.call c) False fun _ => True :=
      (hafter.call hrule c).imp (fun ⟨n, hn, hfault⟩ =>
        hfault (Node.bare_fresh.2 ⟨(hc n hn).1, (hc n hn).2⟩)) fun _ _ => trivial
    obtain ⟨r, hr, -⟩ := hcall.exists_ok
    exact ⟨r, hr⟩

end Session

/-! ## Hulls around loose vertices -/

section Mixing

attribute [local instance] KeyDigest.mixing

/-- The origin and a point on each axis. -/
def Vec3.tripod : List (Vec3 Float) :=
  [⟨0.0, 0.0, 0.0⟩, ⟨1.0, 0.0, 0.0⟩, ⟨0.0, 1.0, 0.0⟩, ⟨0.0, 0.0, 1.0⟩]

/-- The points as vertices of no triangles. -/
def Mesh.scattered (points : List (Vec3 Float)) : Mesh Float := { vertices := points.toArray }

namespace Node

/-- A mesh of points that was written down. -/
def scattered (points : List (Vec3 Float)) : Node Float := plain (.mesh (.scattered points)) []

/-- A hull without points of its own, around points that were written down. -/
def scatteredHull (points : List (Vec3 Float)) : Node Float := plain (.hull []) [scattered points]

end Node

namespace Session

/-- A hull around three points, and a scene of one around two of them. -/
def scattered : Session Float Unit :=
  start 0 [.scatteredHull (Vec3.tripod.take 3)] [{ roots := [.scatteredHull (Vec3.tripod.take 2)] }]

/-- The build of the hull is interrupted, the scene is built, and then the hull. -/
def scatteredCalls : List Call :=
  [.tree 0 fun _ => true, .scene 0 fun _ => false, .tree 0 fun _ => false]

/-- The hull around three points is empty, and draws nothing when it is built. -/
theorem empty_draws_nothing_scattered : ∃ w n m, scattered.after scatteredCalls = .ok w ∧
    w.trees[0]? = some n ∧ n.isEmpty = true ∧ n.isBuilt = true ∧ n.polygonCount = 0 ∧
      n.flattened = .ok m ∧ m.triangles = [] := by
  have hmade : ∀ n ∈ [Node.scatteredHull (Vec3.tripod.take 3),
      Node.scatteredHull (Vec3.tripod.take 2)], n.Made ∧ n.fresh = n ∧ n.Fits := by
    have hhull (points : List (Vec3 Float)) : (Node.scatteredHull points).Made :=
      .read _ _ _ _ _ (List.forall_mem_singleton.2
        (.read _ _ _ _ _ fun _ hc => absurd hc List.not_mem_nil))
    exact List.forall_mem_cons.2 ⟨⟨hhull _, rfl, by decide +kernel⟩,
      List.forall_mem_singleton.2 ⟨hhull _, rfl, by decide +kernel⟩⟩
  have hbuilt : (match scattered.after scatteredCalls with
      | .ok w => w.trees[0]?.any fun n => n.isEmpty && n.isBuilt && decide n.FewPoints
      | .error _ => false) = true := by decide +kernel
  cases hrun : scattered.after scatteredCalls with
  | error e =>
    rw [hrun] at hbuilt
    cases hbuilt
  | ok w =>
    rw [hrun] at hbuilt
    obtain ⟨n, hn, hstate⟩ := (Option.any_eq_true _ _).1 hbuilt
    simp only [Bool.and_eq_true, decide_eq_true_eq] at hstate
    obtain ⟨⟨hempty, hbuilt⟩, hfew⟩ := hstate
    have hpart : n ∈ Node.partsOfAll w.roots := Node.mem_partsOfAll.2
      ⟨n, List.mem_append_left _ (List.mem_of_getElem? hn), n.self_mem_parts⟩
    obtain ⟨hcount, m, hm, htriangles, -⟩ :=
      (empty_draws_nothing hmade (by decide +kernel) hrun).1 n hpart hempty hfew
    exact ⟨w, n, m, rfl, hn, hempty, hbuilt, hcount, hm, htriangles⟩

end Session

namespace Node

/-- Enough of the points are distinct to have a hull. -/
theorem size_distinct_tripod : 3 < (Hull.distinct Vec3.tripod).size := by decide +kernel

/-- The hull around all four points is empty, too, but when it is built it draws four polygons. -/
theorem empty_draws_hull : (scatteredHull Vec3.tripod).isEmpty = true ∧
    (∀ p ∈ (scatteredHull Vec3.tripod).parts, p.kind.WellFormed) ∧
    ∃ n s, (scatteredHull Vec3.tripod).build (fun _ => false)
        { cache := (.new 0 : Cache Float Unit) } = .ok (true, n, s) ∧ n.polygonCount = 4 := by
  have hparts : ∀ p ∈ [scatteredHull Vec3.tripod, scattered Vec3.tripod], p.kind.WellFormed := by
    refine List.forall_mem_cons.2 ⟨fun _ hm => (by cases hm), List.forall_mem_singleton.2 ?_⟩
    rintro _ ⟨⟩
    decide
  obtain ⟨m, hm, hcount⟩ : ∃ m ∈ (Hull.inRounds (Hull.distinct Vec3.tripod)
      ⟨0, Nat.zero_lt_of_lt size_distinct_tripod⟩).toOption, m.triangleCount = 4 := by
    decide +kernel
  have hhull : convexHull Vec3.tripod = .ok m :=
    (convexHull_eq_inRounds size_distinct_tripod).trans (eq_ok_of_mem_toOption hm)
  -- The mesh of points is built as it was written down, and then the hull is made of its vertices.
  have hchildren : ∃ child s, child.flattened = .ok (.scattered Vec3.tripod) ∧
      buildAll (fun _ => false) [scattered Vec3.tripod]
        (Site.lookup { cache := (.new 0 : Cache Float Unit) } (scatteredHull Vec3.tripod)).2 =
          .ok (true, [child], s) := ⟨_, _, rfl, rfl⟩
  obtain ⟨child, s, hflat, hchildren⟩ := hchildren
  have hconstruct : (Kind.hull []).construct [child] = .ok m := by
    rw [Kind.construct, List.mapM_cons, hflat]
    change Except.ok (Mesh.orEmpty (convexHull Vec3.tripod)) = _
    rw [hhull, Mesh.orEmpty]
  refine ⟨by decide, hparts, { scatteredHull Vec3.tripod with
    children := [child], mesh := some m, state := .built },
    { s with cache := s.cache.store (scatteredHull Vec3.tripod).key m }, ?_, hcount⟩
  rw [build_eq, if_neg (by decide), if_neg (by decide), buildAnew]
  exact bind_eq_ok_iff.2 ⟨_, hchildren, bind_eq_ok_iff.2
    ⟨_, bind_eq_ok_iff.2 ⟨m, hconstruct, rfl⟩, rfl⟩⟩

end Node

end Mixing

end Solids
