import Mathlib.Logic.Function.Iterate
import Solids.Proofs.Build.Alone
import Solids.Proofs.Mesh.Concatenation
import Solids.Scene

/-!
# What is drawn of a tree

A tree is drawn as a row of meshes, its *blocks* (`Node.blocks`): one for every part that is built
and has a mesh, from the root down through kinds that render their children, and before the blocks
of later siblings. A block is the part's own mesh in the colors that it is drawn in, taken through
the part's place and then through those of the parts above it, the innermost first
(`Node.drawnWithin`).

Flattening makes the row of the blocks, and faults only if they have more vertices than there are
indices (`Node.flattened_outcome`); so does merging the trees of a scene. What is counted as
polygons are the triangles of the row (`drawnAs_blocks`).
-/

namespace Solids

variable {α : Type} [Scalar α]

/-! ## Through matrices -/

/-- The matrices of places, without those of places that change nothing. -/
def Transform.matrices (places : List (Transform α)) : List (Matrix α) :=
  (places.filter fun t => !t.isIdentity).map matrix

namespace Mesh

/-- The mesh with every vertex taken through matrices in order, and every triangle turned around
    once for each of them that mirrors. -/
def through (m : Mesh α) (as : List (Matrix α)) : Mesh α where
  vertices := m.vertices.map fun p => as.foldl (fun p a => a.apply p) p
  triangles := m.triangles.map (Triangle.flip^[as.countP Matrix.isMirror])
  colors := m.colors

/-- The mesh is where it was if it is taken through nothing. -/
@[simp] theorem through_nil (m : Mesh α) : m.through [] = m := by
  obtain ⟨vertices, triangles, colors⟩ := m
  simp [through]

/-- The mesh goes through the first matrix, and then through the others. -/
theorem through_cons (m : Mesh α) (a : Matrix α) (as : List (Matrix α)) :
    m.through (a :: as) = (m.transform a).through as := by
  have hcount : (a :: as).countP Matrix.isMirror =
      as.countP Matrix.isMirror + if a.isMirror then 1 else 0 := List.countP_cons
  by_cases hmirror : a.isMirror = true
  · simp [through, transform, flip, hmirror, hcount, Function.comp_def]
  · simp [through, transform, hmirror, hcount, Function.comp_def]

/-- The mesh goes through some matrices, and then through others. -/
theorem through_append (m : Mesh α) (as bs : List (Matrix α)) :
    m.through (as ++ bs) = (m.through as).through bs := by
  induction as generalizing m with
  | nil => rw [List.nil_append, through_nil]
  | cons a as ih => rw [List.cons_append, through_cons, through_cons, ih]

/-- No vertex is lost on the way. -/
@[simp] theorem vertexCount_through (m : Mesh α) (as : List (Matrix α)) :
    (m.through as).vertexCount = m.vertexCount :=
  Array.size_map

/-- No triangle is lost on the way. -/
@[simp] theorem triangleCount_through (m : Mesh α) (as : List (Matrix α)) :
    (m.through as).triangleCount = m.triangleCount :=
  List.length_map _

/-- No vertex is lost on the way of many. -/
theorem vertexTotal_map_through (ms : List (Mesh α)) (as : List (Matrix α)) :
    vertexTotal (ms.map fun m => m.through as) = vertexTotal ms := by
  rw [vertexTotal, List.map_map]
  exact congrArg List.sum (List.map_congr_left fun m _ => m.vertexCount_through as)

/-- A mesh stays well formed on the way. -/
theorem WellFormed.through {m : Mesh α} (h : m.WellFormed) (as : List (Matrix α)) :
    (m.through as).WellFormed := by
  induction as generalizing m with
  | nil => rwa [through_nil]
  | cons a as ih =>
    rw [through_cons]
    exact ih (h.transform a)

/-- The triangles of a row of moved meshes are those of the row, turned around by a mirror. -/
theorem trianglesFrom_transform (base : Nat) (ms : List (Mesh α)) (a : Matrix α) :
    trianglesFrom base (ms.map (·.transform a)) =
      if a.isMirror then (trianglesFrom base ms).map Triangle.flip else trianglesFrom base ms := by
  have hcount (m : Mesh α) : (m.transform a).vertexCount = m.vertexCount := by
    rw [transform]
    split <;> simp [vertexCount, flip]
  induction ms generalizing base with
  | nil => simp [trianglesFrom]
  | cons m ms ih =>
    rw [List.map_cons, trianglesFrom, trianglesFrom, ih, hcount]
    by_cases hmirror : a.isMirror = true
    · simp [transform, flip, hmirror, Function.comp_def]
    · simp [transform, hmirror]

/-- To move a row is to move its meshes. -/
theorem concat_transform (ms : List (Mesh α)) (a : Matrix α) :
    (concat ms).transform a = concat (ms.map (·.transform a)) := by
  have hvertices (m : Mesh α) : (m.transform a).vertices = m.vertices.map a.apply := by
    rw [transform]
    split <;> rfl
  have hcolors (m : Mesh α) : (m.transform a).colors = m.colors := by
    rw [transform]
    split <;> rfl
  have hshown (m : Mesh α) : (m.transform a).shownColors = m.shownColors := by
    rw [shownColors, shownColors, hcolors, vertexCount, hvertices, Array.size_map]
    rfl
  have hpainted (m : Mesh α) : (m.transform a).isPainted = m.isPainted := by
    rw [isPainted, isPainted, hcolors]
  have hrow : (concat (ms.map (·.transform a))) =
      { concat ms with
        vertices := (concat ms).vertices.map a.apply
        triangles := trianglesFrom 0 (ms.map (·.transform a)) } := by
    simp [concat, List.flatMap_map, List.map_flatMap, hvertices, hshown, hpainted,
      Function.comp_def]
  rw [hrow, trianglesFrom_transform, transform]
  split <;> rfl

/-- To take a row through matrices is to take its meshes through them. -/
theorem concat_through (ms : List (Mesh α)) (as : List (Matrix α)) :
    (concat ms).through as = concat (ms.map (·.through as)) := by
  induction as generalizing ms with
  | nil => simp
  | cons a as ih => simp only [through_cons, concat_transform, ih, List.map_map, Function.comp_def]

end Mesh

namespace Node

/-! ## Blocks -/

mutual

/-- The parts that are drawn for a tree, from this one down, each with the places that its mesh
    goes through, its own first; `outer` are those of the parts above. -/
def drawnWithin (outer : List (Transform α)) : Node α → List (Node α × List (Transform α))
  | n@{ kind, children, transform, .. } =>
    (n, transform :: outer) ::
      if kind.rendersChildren then drawnAllWithin (transform :: outer) children else []

/-- The parts that are drawn for a list of trees, each with the places that its mesh goes
    through. -/
def drawnAllWithin (outer : List (Transform α)) : List (Node α) → List (Node α × List (Transform α))
  | [] => []
  | n :: ns => n.drawnWithin outer ++ drawnAllWithin outer ns

end

/-- The colors that a mesh of the part is drawn in: its own, or else that of the material, unless
    this is the default. -/
def drawnColors (n : Node α) (m : Mesh α) : Option (Array Rgba) :=
  m.colors.or (if n.material == .default then none
    else some (Array.replicate m.vertexCount n.material.vertexColor))

/-- The mesh of a part that is built, in the colors that it is drawn in. -/
def coloredMesh? (n : Node α) : Option (Mesh α) :=
  n.mesh?.map fun m => { m with colors := n.drawnColors m }

/-- What is drawn for a part whose mesh goes through the given places. -/
def block? (p : Node α × List (Transform α)) : Option (Mesh α) :=
  p.1.coloredMesh?.map fun m => m.through (Transform.matrices p.2)

/-- What is drawn of a tree, one mesh for each part that has one. -/
def blocks (n : Node α) : List (Mesh α) := (n.drawnWithin []).filterMap block?

/-- What is drawn of a list of trees. -/
def blocksOfAll (ns : List (Node α)) : List (Mesh α) := (drawnAllWithin [] ns).filterMap block?

/-- The parts of a tree that are drawn in terms of its root. -/
theorem drawnWithin_eq {α : Type} (outer : List (Transform α)) (n : Node α) :
    n.drawnWithin outer = (n, n.transform :: outer) ::
      if n.kind.rendersChildren then drawnAllWithin (n.transform :: outer) n.children else [] := by
  cases n
  rw [drawnWithin]

/-- Meshes in other surroundings go through more places after their own. -/
theorem drawnWithin_append {α : Type} (inner outer : List (Transform α)) (n : Node α) :
    n.drawnWithin (inner ++ outer) = (n.drawnWithin inner).map fun p => (p.1, p.2 ++ outer) := by
  have hlist {ns : List (Node α)} (inner : List (Transform α))
      (h : ∀ n ∈ ns, ∀ inner, n.drawnWithin (inner ++ outer) =
        (n.drawnWithin inner).map fun p => (p.1, p.2 ++ outer)) :
      drawnAllWithin (inner ++ outer) ns =
        (drawnAllWithin inner ns).map fun p => (p.1, p.2 ++ outer) := by
    induction ns with
    | nil => rfl
    | cons n ns ih =>
      obtain ⟨hn, hns⟩ := List.forall_mem_cons.1 h
      rw [drawnAllWithin, drawnAllWithin, hn, ih hns, List.map_append]
  induction n using induction generalizing inner with
  | step n ih =>
    rw [drawnWithin_eq, drawnWithin_eq, List.map_cons, ← List.cons_append,
      hlist (n.transform :: inner) fun c hc inner => ih c hc inner]
    split <;> rfl

/-- A block in other surroundings goes through more matrices. -/
theorem block?_append (p : Node α) (inner outer : List (Transform α)) :
    block? (p, inner ++ outer) =
      (block? (p, inner)).map fun m => m.through (Transform.matrices outer) := by
  have hmatrices : Transform.matrices (inner ++ outer) =
      Transform.matrices inner ++ Transform.matrices outer := by
    rw [Transform.matrices, List.filter_append, List.map_append]
    rfl
  simp only [block?, hmatrices, Mesh.through_append, Option.map_map, Function.comp_def]

/-- The blocks of a tree in surroundings are its blocks, taken through these. -/
theorem filterMap_drawnWithin (outer : List (Transform α)) (n : Node α) :
    (n.drawnWithin outer).filterMap block? =
      n.blocks.map fun m => m.through (Transform.matrices outer) := by
  -- Blocks are drawn in no surroundings, to which `outer` is appended.
  have happend := drawnWithin_append [] outer n
  rw [List.nil_append] at happend
  rw [happend, blocks, List.filterMap_map, List.map_filterMap]
  exact List.filterMap_congr fun p _ => block?_append p.1 p.2 outer

/-- The blocks of trees are those of the first and then those of the others. -/
theorem blocksOfAll_cons (n : Node α) (ns : List (Node α)) :
    blocksOfAll (n :: ns) = n.blocks ++ blocksOfAll ns := by
  rw [blocksOfAll, drawnAllWithin, List.filterMap_append]
  rfl

/-- The blocks of trees in surroundings are their blocks, taken through these. -/
theorem filterMap_drawnAllWithin (outer : List (Transform α)) (ns : List (Node α)) :
    (drawnAllWithin outer ns).filterMap block? =
      (blocksOfAll ns).map fun m => m.through (Transform.matrices outer) := by
  induction ns with
  | nil => rfl
  | cons n ns ih =>
    rw [drawnAllWithin, List.filterMap_append, filterMap_drawnWithin, ih, ← List.map_append,
      blocksOfAll_cons]

/-- The blocks of a tree are its own mesh and its children's blocks, all taken through its
    place. -/
theorem blocks_eq (n : Node α) :
    n.blocks = (n.coloredMesh?.toList ++
      if n.kind.rendersChildren then blocksOfAll n.children else []).map
        fun m => m.through (Transform.matrices [n.transform]) := by
  have hown : [(n, [n.transform])].filterMap block? =
      n.coloredMesh?.toList.map fun m => m.through (Transform.matrices [n.transform]) := by
    simp only [List.filterMap_cons, block?]
    cases n.coloredMesh? <;> rfl
  rw [blocks, drawnWithin_eq, ← List.singleton_append, List.filterMap_append, hown,
    List.map_append]
  split
  · rw [filterMap_drawnAllWithin]
  · rfl

/-! ## Meshes in their colors -/

/-- The meshes in a tree, as far as it is built, are well formed. -/
def MeshesWellFormed {α : Type} (n : Node α) : Prop :=
  ∀ p ∈ n.parts, ∀ m, p.mesh? = some m → m.WellFormed

/-- The own mesh of a part as it is drawn is the one in its colors, or else the empty one. -/
theorem drawnMesh_eq {α : Type} (n : Node α) :
    n.drawnMesh = Mesh.concat n.coloredMesh?.toList := by
  cases hmesh : n.mesh? with
  | none =>
    rw [coloredMesh?, hmesh, drawnMesh, hmesh]
    rfl
  | some m =>
    -- Own colors come before the material, and the default material paints nothing.
    have hdrawn : n.drawnMesh = { m with colors := n.drawnColors m } := by
      obtain ⟨vertices, triangles, colors⟩ := m
      rw [drawnMesh, hmesh]
      dsimp only
      cases hcolors : colors with
      | some own => simp [Mesh.isPainted, drawnColors]
      | none =>
        by_cases hdefault : (n.material == .default) = true
        · simp [drawnColors, hdefault]
        · simp [Mesh.isPainted, Mesh.paint, Mesh.vertexCount, drawnColors, hdefault]
    rw [coloredMesh?, hmesh, hdrawn]
    exact (Mesh.concat_singleton _).symm

/-- A well-formed mesh stays so in the colors that it is drawn in. -/
theorem wellFormed_of_coloredMesh? {α : Type} {n : Node α} {b : Mesh α}
    (hn : ∀ m, n.mesh? = some m → m.WellFormed) (hb : n.coloredMesh? = some b) : b.WellFormed := by
  obtain ⟨m, hm, rfl⟩ := Option.map_eq_some_iff.1 hb
  refine ⟨(hn m hm).corner_lt, fun colors hcolors => ?_⟩
  rcases Option.or_eq_some_iff.1 hcolors with hown | ⟨-, hpaint⟩
  · exact (hn m hm).size_colors colors hown
  · split at hpaint
    · cases hpaint
    · cases hpaint
      exact Array.size_replicate

/-- The blocks of a tree with well-formed meshes are well formed. -/
theorem MeshesWellFormed.of_mem_blocks {n : Node α} (hn : n.MeshesWellFormed) :
    ∀ b ∈ n.blocks, b.WellFormed := by
  induction n using induction with
  | step n ih =>
    obtain ⟨hself, hchildren⟩ := forall_mem_parts.1 hn
    have hall (ns : List (Node α)) (h : ∀ c ∈ ns, ∀ b ∈ c.blocks, b.WellFormed) :
        ∀ b ∈ blocksOfAll ns, b.WellFormed := by
      induction ns with
      | nil => exact fun b hb => absurd hb List.not_mem_nil
      | cons c ns ih =>
        obtain ⟨hc, hns⟩ := List.forall_mem_cons.1 h
        rw [blocksOfAll_cons]
        exact List.forall_mem_append.2 ⟨hc, ih hns⟩
    rw [blocks_eq, List.forall_mem_map, List.forall_mem_append]
    refine ⟨fun b hb => ?_, fun b hb => ?_⟩
    · exact (wellFormed_of_coloredMesh? hself (Option.mem_toList.1 hb)).through _
    · split at hb
      · exact (hall n.children (fun c hc => ih c hc (hchildren c hc)) b hb).through _
      · cases hb

/-! ## Flattening -/

/-- A mesh and the blocks of trees that are flattened to rows are merged to the row of them,
    unless they have more vertices than there are indices. -/
theorem mergeFlattened_outcome {ns : List (Node α)}
    (h : ∀ n ∈ ns, (∀ b ∈ n.blocks, b.WellFormed) ∧ Outcome n.flattened
      (UInt32.size < Mesh.vertexTotal n.blocks) (· = Mesh.concat n.blocks))
    {ms : List (Mesh α)} (hms : ∀ m ∈ ms, m.WellFormed) :
    Outcome (mergeFlattened (Mesh.concat ms) ns)
      (UInt32.size < Mesh.vertexTotal (ms ++ blocksOfAll ns))
      (· = Mesh.concat (ms ++ blocksOfAll ns)) := by
  induction ns generalizing ms with
  | nil =>
    rw [mergeFlattened, blocksOfAll, drawnAllWithin, List.filterMap_nil, List.append_nil]
    exact rfl
  | cons n ns ih =>
    obtain ⟨⟨hblocks, hflat⟩, hns⟩ := List.forall_mem_cons.1 h
    have hboth : ∀ m ∈ ms ++ n.blocks, m.WellFormed := List.forall_mem_append.2 ⟨hms, hblocks⟩
    rw [mergeFlattened, blocksOfAll_cons, ← List.append_assoc]
    have htotal := Mesh.vertexTotal_append (ms ++ n.blocks) (blocksOfAll ns)
    have hpair := Mesh.vertexTotal_append ms n.blocks
    -- A tree that does not fit alone does not fit after others.
    refine hflat.bind (fun hlt => by omega) ?_
    rintro _ rfl
    refine (Mesh.merge_outcome (Mesh.wellFormed_concat hms) (Mesh.wellFormed_concat hblocks)).bind
      (fun hlt => ?_) ?_
    · rw [Mesh.vertexCount_concat, Mesh.vertexCount_concat] at hlt
      omega
    · rintro _ rfl
      rw [Mesh.concat_concat]
      exact ih hns hboth

/-- A row in the place of a part is the row of its meshes in that place. -/
theorem concat_placed (n : Node α) (ms : List (Mesh α)) :
    (if n.transform.isIdentity then Mesh.concat ms
      else (Mesh.concat ms).transform n.transform.matrix) =
        Mesh.concat (ms.map fun m => m.through (Transform.matrices [n.transform])) := by
  rw [← Mesh.concat_through, Transform.matrices, List.filter_singleton]
  by_cases hidentity : n.transform.isIdentity = true
  · simp [hidentity]
  · simp [hidentity, Mesh.through_cons]

/-- The own mesh of a part is merged to itself. -/
theorem merge_drawnMesh_outcome {α : Type} {n : Node α}
    (hn : ∀ m, n.mesh? = some m → m.WellFormed) :
    Outcome (Mesh.empty.merge n.drawnMesh)
      (UInt32.size < Mesh.vertexTotal n.coloredMesh?.toList)
      (· = Mesh.concat n.coloredMesh?.toList) := by
  have hown : ∀ m ∈ n.coloredMesh?.toList, m.WellFormed := fun m hm =>
    wellFormed_of_coloredMesh? hn (Option.mem_toList.1 hm)
  rw [drawnMesh_eq]
  refine (Mesh.merge_outcome Mesh.wellFormed_empty (Mesh.wellFormed_concat hown)).imp
    (fun hlt => ?_) ?_
  · have hempty : (Mesh.empty : Mesh α).vertexCount = 0 := rfl
    rwa [hempty, Nat.zero_add, Mesh.vertexCount_concat] at hlt
  · rintro _ rfl
    rw [Mesh.concat_empty_cons, Mesh.concat_singleton]

/-- A tree with well-formed meshes is flattened to the row of its blocks, unless they have more
    vertices than there are indices. -/
theorem flattened_outcome {n : Node α} (hn : n.MeshesWellFormed) :
    Outcome n.flattened (UInt32.size < Mesh.vertexTotal n.blocks) (· = Mesh.concat n.blocks) := by
  induction n using induction with
  | step n ih =>
    obtain ⟨hself, hchildren⟩ := forall_mem_parts.1 hn
    have hown : ∀ m ∈ n.coloredMesh?.toList, m.WellFormed := fun m hm =>
      wellFormed_of_coloredMesh? hself (Option.mem_toList.1 hm)
    rw [flattened_eq, blocks_eq, Mesh.vertexTotal_map_through, Mesh.vertexTotal_append]
    refine (merge_drawnMesh_outcome hself).bind (fun hlt => by omega) ?_
    rintro _ rfl
    cases hrenders : n.kind.rendersChildren with
    | false =>
      simp only [Bool.false_eq_true, if_false]
      rw [List.append_nil]
      exact n.concat_placed _
    | true =>
      simp only [if_true]
      have hdraws : ∀ c ∈ n.children, (∀ b ∈ c.blocks, b.WellFormed) ∧ Outcome c.flattened
          (UInt32.size < Mesh.vertexTotal c.blocks) (· = Mesh.concat c.blocks) := fun c hc =>
        ⟨MeshesWellFormed.of_mem_blocks (hchildren c hc), ih c hc (hchildren c hc)⟩
      rw [← Mesh.vertexTotal_append]
      refine (mergeFlattened_outcome hdraws hown).bind id ?_
      rintro _ rfl
      exact n.concat_placed _

/-- The polygons of a tree are those of its blocks. -/
theorem polygonCount_eq_sum (n : Node α) :
    n.polygonCount = (n.blocks.map Mesh.triangleCount).sum := by
  induction n using induction with
  | step n ih =>
    have hall (ns : List (Node α))
        (h : ∀ c ∈ ns, c.polygonCount = (c.blocks.map Mesh.triangleCount).sum) :
        polygonCountAll ns = ((blocksOfAll ns).map Mesh.triangleCount).sum := by
      induction ns with
      | nil => rfl
      | cons c ns ih =>
        obtain ⟨hc, hns⟩ := List.forall_mem_cons.1 h
        rw [polygonCountAll, blocksOfAll_cons, List.map_append, List.sum_append, hc, ih hns]
    have hmove (ms : List (Mesh α)) : ((ms.map fun m =>
        m.through (Transform.matrices [n.transform])).map Mesh.triangleCount).sum =
          (ms.map Mesh.triangleCount).sum := by
      rw [List.map_map]
      exact congrArg List.sum (List.map_congr_left fun m _ => m.triangleCount_through _)
    have hown : (n.mesh?.map Mesh.triangleCount).getD 0 =
        (n.coloredMesh?.toList.map Mesh.triangleCount).sum := by
      rw [coloredMesh?]
      cases n.mesh? <;> rfl
    rw [polygonCount_eq, blocks_eq, hmove, List.map_append, List.sum_append, hown]
    split
    · rw [hall n.children ih]
    · rfl

/-- The polygons of trees are those of their blocks. -/
theorem polygonCountAll_eq_sum (ns : List (Node α)) :
    polygonCountAll ns = ((blocksOfAll ns).map Mesh.triangleCount).sum := by
  induction ns with
  | nil => rfl
  | cons n ns ih =>
    rw [polygonCountAll, blocksOfAll_cons, List.map_append, List.sum_append, polygonCount_eq_sum,
      ih]

end Node

/-! ## What is drawn -/

/-- What is drawn and counted is the row of blocks, always unless they have more vertices than
    there are indices. -/
structure DrawnAs (drawn : Except Fault (Mesh α)) (polygons : Nat) (blocks : List (Mesh α)) :
    Prop where
  eq_ok : Mesh.vertexTotal blocks ≤ UInt32.size → drawn = .ok (Mesh.concat blocks)
  eq_concat : ∀ m, drawn = .ok m → m = Mesh.concat blocks
  triangleCount_eq : ∀ m, drawn = .ok m → m.triangleCount = polygons
  colors_eq_none_iff : ∀ m, drawn = .ok m → (m.colors = none ↔ ∀ b ∈ blocks, b.colors = none)

omit [Scalar α] in
/-- What comes to the row of blocks, and is counted by them, is drawn so. -/
theorem DrawnAs.of_outcome {drawn : Except Fault (Mesh α)} {polygons : Nat}
    {blocks : List (Mesh α)}
    (hdrawn : Outcome drawn (UInt32.size < Mesh.vertexTotal blocks) (· = Mesh.concat blocks))
    (hpolygons : polygons = (blocks.map Mesh.triangleCount).sum) :
    DrawnAs drawn polygons blocks where
  eq_ok hle := by
    cases drawn with
    | ok m => exact congrArg _ hdrawn
    | error e => exact absurd hdrawn (Nat.not_lt.2 hle)
  eq_concat m hm := hdrawn.of_ok hm
  triangleCount_eq m hm := by rw [hdrawn.of_ok hm, Mesh.triangleCount_concat, hpolygons]
  colors_eq_none_iff m hm := by
    have hpainted : blocks.any Mesh.isPainted = true ↔ ∃ b ∈ blocks, b.colors ≠ none := by
      simp only [List.any_eq_true, Mesh.isPainted, Option.isSome_iff_ne_none]
    rw [hdrawn.of_ok hm]
    dsimp only [Mesh.concat]
    split
    · next hany =>
      obtain ⟨b, hb, hcolors⟩ := hpainted.1 hany
      exact ⟨fun hnone => absurd hnone (Option.some_ne_none _),
        fun hall => absurd (hall b hb) hcolors⟩
    · next hany =>
      refine ⟨fun _ b hb => ?_, fun _ => rfl⟩
      by_contra hcolors
      exact hany (hpainted.2 ⟨b, hb, hcolors⟩)

/-- A tree with well-formed meshes is drawn as the row of its blocks, and so is a scene of such
    trees. -/
theorem drawnAs_blocks :
    (∀ n : Node α, n.MeshesWellFormed → DrawnAs n.flattened n.polygonCount n.blocks) ∧
    (∀ scene : Scene α, (∀ n ∈ scene.roots, n.MeshesWellFormed) →
      DrawnAs scene.merged scene.polygonCount (Node.blocksOfAll scene.roots)) := by
  constructor
  · exact fun n hn => .of_outcome (Node.flattened_outcome hn) n.polygonCount_eq_sum
  · intro scene hroots
    have hmerged := Node.mergeFlattened_outcome (fun n hn =>
      ⟨(hroots n hn).of_mem_blocks, Node.flattened_outcome (hroots n hn)⟩) (List.forall_mem_nil _)
    exact .of_outcome hmerged (Node.polygonCountAll_eq_sum scene.roots)

section Mixing

attribute [local instance] KeyDigest.mixing

/-- A part that is built as a triangle. -/
def triangular (material : Material) : Node Float :=
  { Node.new .cube with
    material
    state := .built
    mesh := some { vertices := #[.zero, .one, .zero], triangles := [⟨0, 1, 2⟩] } }

/-- Two triangles that are built, the second one painted, before a cube that is not, in a mirrored
    group. -/
def mirroredPair : Node Float :=
  .make .group { Transform.identity with scale := ⟨-1.0, 1.0, 1.0⟩ } .default none none
    [triangular .default, triangular (.ofColor .white), Node.new .cube]

/-- The mirrored group is drawn as a row of two blocks. Their triangles are turned around, the
    second one starts after the vertices of the first, and only its own are painted. In a scene the
    group is drawn again after itself. -/
theorem drawnAs_blocks_mirroredPair : mirroredPair.MeshesWellFormed ∧
    (∃ m, mirroredPair.flattened = .ok m ∧ m = Mesh.concat mirroredPair.blocks ∧
      m.triangles = [⟨0, 2, 1⟩, ⟨3, 5, 4⟩] ∧ m.triangleCount = 2 ∧
      (m.colors == some (Array.replicate 3 .unpainted ++
        Array.replicate 3 (Material.ofColor .white).vertexColor)) = true) ∧
    ∃ m, ({ roots := [mirroredPair, mirroredPair] } : Scene Float).merged = .ok m ∧
      m.triangles = [⟨0, 2, 1⟩, ⟨3, 5, 4⟩, ⟨6, 8, 7⟩, ⟨9, 11, 10⟩] ∧ m.triangleCount = 4 := by
  have hformed : mirroredPair.MeshesWellFormed := by
    intro p hp m hm
    change p ∈ [mirroredPair, triangular _, triangular _, Node.new .cube] at hp
    simp only [List.mem_cons, List.not_mem_nil, or_false] at hp
    rcases hp with rfl | rfl | rfl | rfl
    · cases hm
    · cases hm
      decide
    · cases hm
      decide
    · cases hm
  have hroots : ∀ n ∈ [mirroredPair, mirroredPair], n.MeshesWellFormed := by
    simp [hformed]
  have htree := drawnAs_blocks.1 mirroredPair hformed
  have hscene := drawnAs_blocks.2 { roots := [mirroredPair, mirroredPair] } hroots
  have htotal : Mesh.vertexTotal mirroredPair.blocks ≤ UInt32.size := by decide +kernel
  have htotals : Mesh.vertexTotal (Node.blocksOfAll [mirroredPair, mirroredPair]) ≤
      UInt32.size := by decide +kernel
  refine ⟨hformed, ⟨_, htree.eq_ok htotal, rfl, ?_, ?_, ?_⟩, _, hscene.eq_ok htotals, ?_, ?_⟩
  · decide +kernel
  · exact htree.triangleCount_eq _ (htree.eq_ok htotal)
  · decide +kernel
  · decide +kernel
  · exact hscene.triangleCount_eq _ (hscene.eq_ok htotals)

end Mixing

end Solids
