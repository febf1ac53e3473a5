import Mathlib
import Solids.Proofs.Exact.Decomposition
import Solids.Proofs.Exact.Estimate
import Solids.Proofs.Node.Drawing

/-!
# Where marks stand

A scene keeps every camera and every light in the place that it has in the world. That place goes
down the tree as a scale, a rotation and an offset, and at every part is put together with the
part's own to a matrix, which is taken apart again. Drawing takes the points of a mesh through one
matrix after another, from the innermost to the outermost (`Transform.carry`).

Over exact numbers the two agree about where a mark is, as long as no part above it is sheared or
flattened (`Transform.Unsheared`): as long as the product of the matrices from the root down to any
of these parts has axes at right angles, none of them without length (`marks_carried`). A scale
above a rotation shears, unless it is the same along the axes that are turned, and then the mark is
elsewhere (`marks_not_carried`). A scale with a zero leaves an axis without length, and the place is
taken apart by dividing by that length. Over binary numbers that makes no number, and a mark below
such a part is nowhere (`mark_nan_of_flattened`).
-/

namespace Solids

/-! ## Parts and what is above them -/

namespace Node

variable {α : Type}

mutual

/-- The parts of a tree from this one down, each with the places of the parts above it, the
    innermost first; `above` are those of the parts above the tree. -/
def partsWithin (above : List (Transform α)) : Node α → List (Node α × List (Transform α))
  | n@{ children, transform, .. } => (n, above) :: partsAllWithin (transform :: above) children

/-- The parts of a list of trees, each with the places of the parts above it. -/
def partsAllWithin (above : List (Transform α)) :
    List (Node α) → List (Node α × List (Transform α))
  | [] => []
  | n :: ns => n.partsWithin above ++ partsAllWithin above ns

end

/-- The parts of a tree in terms of its root. -/
theorem partsWithin_eq (above : List (Transform α)) (n : Node α) :
    n.partsWithin above = (n, above) :: partsAllWithin (n.transform :: above) n.children := by
  cases n
  rw [partsWithin]

/-- The parts of a tree with their places in terms of its root. -/
theorem placed_eq [Scalar α] (outer : Transform α) (n : Node α) :
    n.placed outer = (n, outer.followedBy n.transform) ::
      placedAll (outer.followedBy n.transform) n.children := by
  cases n
  rw [placed]

end Node

/-! ## Through places -/

namespace Transform

section Scalar

variable {α : Type} [Scalar α]

/-- Where a point is taken by places, one after another. -/
def carry (places : List (Transform α)) (p : Vec3 α) : Vec3 α :=
  places.foldl (fun p t => t.matrix.apply p) p

/-- The product of the matrices of places, where the first is the innermost. -/
def product : List (Transform α) → Matrix α
  | [] => .identity
  | t :: ts => product ts * t.matrix

end Scalar

variable [Reading]

/-- No product of the matrices from the outermost place inward shears or flattens. -/
def Unsheared (places : List (Transform ℝ)) : Prop :=
  ∀ outer, outer <:+ places → (product outer).Upright

end Transform

variable [Reading]

namespace Matrix

variable {m n : Matrix ℝ}

/-- The matrix of a place is affine. -/
theorem affine_matrix (t : Transform ℝ) : t.matrix.Affine where
  axisX_w := by
    change (0.0 : ℝ) * t.scale.x = 0
    rw [Scalar.zero_eq, zero_mul]
  axisY_w := by
    change (0.0 : ℝ) * t.scale.y = 0
    rw [Scalar.zero_eq, zero_mul]
  axisZ_w := by
    change (0.0 : ℝ) * t.scale.z = 0
    rw [Scalar.zero_eq, zero_mul]
  origin_w := Scalar.one_eq

/-- The components of the image of a column. -/
theorem applyColumn_eq (m : Matrix ℝ) (c : Column ℝ) : m.applyColumn c =
    ⟨m.axisX.x * c.x + m.axisY.x * c.y + m.axisZ.x * c.z + m.origin.x * c.w,
     m.axisX.y * c.x + m.axisY.y * c.y + m.axisZ.y * c.z + m.origin.y * c.w,
     m.axisX.z * c.x + m.axisY.z * c.y + m.axisZ.z * c.z + m.origin.z * c.w,
     m.axisX.w * c.x + m.axisY.w * c.y + m.axisZ.w * c.z + m.origin.w * c.w⟩ := rfl

/-- The columns of a product are the images of columns. -/
theorem mul_eq (m n : Matrix ℝ) : m * n = ⟨m.applyColumn n.axisX, m.applyColumn n.axisY,
    m.applyColumn n.axisZ, m.applyColumn n.origin⟩ := rfl

/-- The product of affine maps is affine. -/
theorem Affine.mul (hm : m.Affine) (hn : n.Affine) : (m * n).Affine := by
  constructor <;> simp [mul_eq, applyColumn_eq, hm.axisX_w, hm.axisY_w, hm.axisZ_w, hm.origin_w,
    hn.axisX_w, hn.axisY_w, hn.axisZ_w, hn.origin_w]

/-- A product of affine maps takes points through the second and then through the first. -/
theorem Affine.apply_mul (hn : n.Affine) (p : Vec3 ℝ) : (m * n).apply p = m.apply (n.apply p) := by
  simp only [apply_eq, mul_eq, applyColumn_eq, hn.axisX_w, hn.axisY_w, hn.axisZ_w, hn.origin_w,
    Vec3.mk.injEq]
  refine ⟨?_, ?_, ?_⟩ <;> ring

/-- The map that moves nothing leaves points where they are. -/
theorem identity_apply (p : Vec3 ℝ) : (identity : Matrix ℝ).apply p = p := by
  simp only [apply_eq, identity, Scalar.one_eq, Scalar.zero_eq]
  simp

end Matrix

namespace Transform

/-- The matrix of what was not moved is that of the map that moves nothing. -/
theorem matrix_identity : (identity : Transform ℝ).matrix = .identity := by
  norm_num [matrix, identity, Matrix.compose, Matrix.identity, Rotation.identity, Vec3.one,
    Vec3.zero, Column.mul_eq]

/-- The product takes points where the places do. -/
theorem product_apply (places : List (Transform ℝ)) (p : Vec3 ℝ) :
    (product places).apply p = carry places p := by
  induction places generalizing p with
  | nil => exact Matrix.identity_apply p
  | cons t ts ih =>
    rw [product, (Matrix.affine_matrix t).apply_mul, ih]
    rfl

/-- Places that are told apart by no number are one. -/
theorem eq_of_beq {t u : Transform ℝ} (h : (t == u) = true) : t = u := by
  obtain ⟨⟨ox, oy, oz⟩, ⟨qx, qy, qz, qw⟩, ⟨sx, sy, sz⟩⟩ := t
  obtain ⟨⟨ox', oy', oz'⟩, ⟨qx', qy', qz', qw'⟩, ⟨sx', sy', sz'⟩⟩ := u
  simp only [BEq.beq, instBEqTransform.beq, instBEqVec3.beq, instBEqRotation.beq,
    Bool.and_eq_true, decide_eq_true_eq] at h
  obtain ⟨⟨rfl, rfl, rfl⟩, ⟨rfl, rfl, rfl, rfl⟩, rfl, rfl, rfl⟩ := h
  rfl

/-- Places that change nothing may be left out, as they are where meshes are drawn. -/
theorem foldl_matrices (places : List (Transform ℝ)) (p : Vec3 ℝ) :
    (matrices places).foldl (fun p a => a.apply p) p = carry places p := by
  induction places generalizing p with
  | nil => rfl
  | cons t ts ih =>
    change _ = carry ts (t.matrix.apply p)
    rw [← ih, matrices, List.filter_cons]
    split
    · rfl
    · next h =>
      have hidentity : t = identity := eq_of_beq (by simpa [isIdentity] using h)
      rw [hidentity, matrix_identity, Matrix.identity_apply]
      rfl

/-- A mark stands where its parent's place in the world takes its offset. -/
theorem offset_followedBy (outer inner : Transform ℝ) :
    (outer.followedBy inner).offset = outer.matrix.apply inner.offset := by
  have horigin : inner.matrix.origin = ⟨inner.offset.x, inner.offset.y, inner.offset.z, 1⟩ := by
    rw [← Scalar.one_eq]
    rfl
  change (outer.matrix * inner.matrix).origin.xyz = _
  simp only [Matrix.mul_eq, horigin, Matrix.applyColumn_eq, Matrix.apply_eq, Column.xyz,
    Vec3.mk.injEq]
  refine ⟨?_, ?_, ?_⟩ <;> ring

/-- Where nothing is sheared or flattened, the matrix of the place that is put together is the
    product. -/
theorem matrix_followedBy {outer inner : Transform ℝ}
    (h : (outer.matrix * inner.matrix).Upright) :
    (outer.followedBy inner).matrix = outer.matrix * inner.matrix :=
  matrix_ofMatrix ((Matrix.affine_matrix outer).mul (Matrix.affine_matrix inner)) h

/-- What is unsheared is so further out. -/
theorem Unsheared.of_suffix {places outer : List (Transform ℝ)} (h : Unsheared places)
    (houter : outer <:+ places) : Unsheared outer :=
  fun us hus => h us (hus.trans houter)

end Transform

open Transform

/-! ## Turns around the third axis -/

/-- The rotation of vectors that are turned around the third axis turns around it. -/
theorem Matrix.rotationOfAxes_of_level {a b c : Vec3 ℝ} (ha : a.z = 0) (hb : b.z = 0)
    (hcx : c.x = 0) (hcy : c.y = 0) (hc : 0 < c.z) :
    (rotationOfAxes a b c).x = 0 ∧ (rotationOfAxes a b c).y = 0 := by
  rw [rotationOfAxes, Scalar.zero_eq, if_neg hc.not_ge]
  dsimp only
  split <;> simp [ha, hb, hcx, hcy]

/-- A place that turns around the third axis takes the first two axes to directions at right
    angles. -/
theorem Transform.dot_of_level {t : Transform ℝ} (hx : t.rotation.x = 0) (hy : t.rotation.y = 0) :
    (t.matrix.apply ⟨1, 0, 0⟩ - t.matrix.apply ⟨0, 0, 0⟩).dot
      (t.matrix.apply ⟨0, 1, 0⟩ - t.matrix.apply ⟨0, 0, 0⟩) = 0 := by
  obtain ⟨⟨ox, oy, oz⟩, ⟨x, y, z, w⟩, ⟨sx, sy, sz⟩⟩ := t
  dsimp only at hx hy
  subst hx hy
  simp only [matrix, Matrix.compose, Matrix.apply_eq, Column.mul_eq, Vec3.sub_eq, Vec3.dot_eq,
    Scalar.one_eq, Scalar.zero_eq]
  ring

/-! ## Parts in places -/

namespace Node

/-- A part is placed where it is carried, as long as nothing above it is sheared. -/
def PlacedAt (p : Node ℝ × Transform ℝ) (q : Node ℝ × List (Transform ℝ)) : Prop :=
  p.1 = q.1 ∧ (Unsheared q.2 → p.2.offset = carry q.2 q.1.transform.offset)

/-- The parts of a tree are placed where they are carried if the tree's surroundings are. -/
theorem forall₂_placed {world : Transform ℝ} {above : List (Transform ℝ)} (n : Node ℝ)
    (h : Unsheared above → world.matrix = product above) :
    List.Forall₂ PlacedAt (n.placed world) (n.partsWithin above) := by
  induction n using induction generalizing world above with
  | step n ih =>
    have hbelow : Unsheared (n.transform :: above) →
        (world.followedBy n.transform).matrix = product (n.transform :: above) := by
      intro hunsheared
      have hworld := h (hunsheared.of_suffix (List.suffix_cons _ _))
      have hupright := hunsheared _ List.suffix_rfl
      rw [product, ← hworld] at hupright ⊢
      exact matrix_followedBy hupright
    have hlist {ns : List (Node ℝ)} (hsub : ∀ c ∈ ns, c ∈ n.children) :
        List.Forall₂ PlacedAt (placedAll (world.followedBy n.transform) ns)
          (partsAllWithin (n.transform :: above) ns) := by
      induction ns with
      | nil => exact .nil
      | cons c ns ihl =>
        obtain ⟨hc, hns⟩ := List.forall_mem_cons.1 hsub
        rw [placedAll, partsAllWithin]
        exact List.rel_append (ih c hc hbelow) (ihl hns)
    rw [placed_eq, partsWithin_eq]
    refine .cons ⟨rfl, fun hunsheared => ?_⟩ (hlist fun _ hc => hc)
    rw [offset_followedBy, h hunsheared, product_apply]

/-- The parts of trees are placed where they are carried. -/
theorem forall₂_placedAll (ns : List (Node ℝ)) :
    List.Forall₂ PlacedAt (placedAll .identity ns) (partsAllWithin [] ns) := by
  induction ns with
  | nil => exact .nil
  | cons n ns ih =>
    rw [placedAll, partsAllWithin]
    exact List.rel_append (n.forall₂_placed fun _ => matrix_identity) ih

/-- A part in another place is in that place. -/
theorem transform_withTransform [KeyDigest] (n : Node ℝ) (t : Transform ℝ) :
    (n.withTransform t).transform = t := by
  rw [withTransform, rekey]
  split <;> rfl

end Node

/-! ## Marks -/

namespace Scene

/-- The part in another place, which is where the part is carried if nothing above it is sheared or
    flattened. -/
def Marks [KeyDigest] (mark : Node ℝ) (p : Node ℝ × List (Transform ℝ)) : Prop :=
  (∃ place, mark = p.1.withTransform place) ∧
    (Unsheared p.2 → mark.transform.offset = carry p.2 p.1.transform.offset)

/-- The cameras and lights of a scene are those among its parts in order, and each stands where its
    offset is carried by the parts above it from the innermost to the outermost, unless these shear
    or flatten. This is where drawing takes the same point. -/
theorem marks_carried [KeyDigest] (background : Option Color) (roots : List (Node ℝ)) :
    List.Forall₂ Marks (Scene.new background roots).cameras
        ((Node.partsAllWithin [] roots).filter fun p => p.1.kind.isCamera) ∧
      List.Forall₂ Marks (Scene.new background roots).lights
        ((Node.partsAllWithin [] roots).filter fun p => p.1.kind.isLight) ∧
      ∀ (m : Mesh ℝ) (above : List (Transform ℝ)),
        (m.through (matrices above)).vertices = m.vertices.map (carry above) := by
  have hmarks (marked : Kind ℝ → Bool) : List.Forall₂ Marks
      (((Node.placedAll .identity roots).filter fun p => marked p.1.kind).map
        fun p => p.1.withTransform p.2)
      ((Node.partsAllWithin [] roots).filter fun p => marked p.1.kind) := by
    have hsame {p : Node ℝ × Transform ℝ} {q : Node ℝ × List (Transform ℝ)}
        (hpq : Node.PlacedAt p q) : marked p.1.kind = true ↔ marked q.1.kind = true := by
      rw [hpq.1]
    rw [List.forall₂_map_left_iff]
    refine (List.rel_filter (fun _ _ hpq => hsame hpq) (Node.forall₂_placedAll roots)).imp
      fun p q hpq => ?_
    obtain ⟨hpart, hplace⟩ := hpq
    refine ⟨⟨p.2, by rw [hpart]⟩, fun hunsheared => ?_⟩
    rw [Node.transform_withTransform, hplace hunsheared]
  refine ⟨hmarks Kind.isCamera, hmarks Kind.isLight, fun m above => ?_⟩
  exact congrArg (m.vertices.map ·) (funext fun p => foldl_matrices above p)

end Scene

end Solids

/-! ## Cameras in a sheared group -/

namespace Solids

open Transform

attribute [local instance] Session.coarseReading Session.byteCount

/-- A camera that was moved. -/
noncomputable def movedCamera (offset : Vec3 ℝ) : Node ℝ :=
  .make (.camera {}) { Transform.identity with offset } .default none none []

/-- A place that stretches. -/
noncomputable def stretched (scale : Vec3 ℝ) : Transform ℝ := { Transform.identity with scale }

/-- A place that turns around the third axis, by the angle with a sine of `0.96`. -/
noncomputable def turned : Transform ℝ := { Transform.identity with rotation := ⟨0, 0, 0.6, 0.8⟩ }

/-- Cameras in a group that is turned, in a group that is stretched. -/
noncomputable def shearedCameras (scale : Vec3 ℝ) : Node ℝ :=
  .make .group (stretched scale) .default none none
    [.make .group turned .default none none
      [movedCamera ⟨0, 0, 0⟩, movedCamera ⟨1, 0, 0⟩, movedCamera ⟨0, 1, 0⟩]]

/-- The matrix of a place that stretches. -/
theorem matrix_stretched (s : Vec3 ℝ) : (stretched s).matrix =
    ⟨⟨s.x, 0, 0, 0⟩, ⟨0, s.y, 0, 0⟩, ⟨0, 0, s.z, 0⟩, ⟨0, 0, 0, 1⟩⟩ := by
  norm_num [stretched, matrix, Transform.identity, Matrix.compose, Rotation.identity, Vec3.zero,
    Column.mul_eq]

/-- The matrix of the place that turns. -/
theorem matrix_turned : turned.matrix =
    ⟨⟨0.28, 0.96, 0, 0⟩, ⟨-0.96, 0.28, 0, 0⟩, ⟨0, 0, 1, 0⟩, ⟨0, 0, 0, 1⟩⟩ := by
  norm_num [turned, matrix, Transform.identity, Matrix.compose, Vec3.zero, Vec3.one, Column.mul_eq]

namespace Scene

/-- Marks are not always where their offsets are carried: in the sheared group they keep directions
    at right angles that are no longer. -/
theorem marks_not_carried :
    ¬∀ (background : Option Color) (roots : List (Node ℝ)),
      List.Forall₂ (fun mark p => mark.transform.offset = carry p.2 p.1.transform.offset)
          (Scene.new background roots).cameras
          ((Node.partsAllWithin [] roots).filter fun p => p.1.kind.isCamera) ∧
        List.Forall₂ (fun mark p => mark.transform.offset = carry p.2 p.1.transform.offset)
          (Scene.new background roots).lights
          ((Node.partsAllWithin [] roots).filter fun p => p.1.kind.isLight) := by
  intro h
  obtain ⟨hcameras, -⟩ := h none [shearedCameras ⟨2, 1, 1⟩]
  set outer := identity.followedBy (stretched ⟨2, 1, 1⟩) with houter
  set world := outer.followedBy turned with hworld
  change List.Forall₂ _ [(movedCamera ⟨0, 0, 0⟩).withTransform (world.followedBy _),
    (movedCamera ⟨1, 0, 0⟩).withTransform (world.followedBy _),
    (movedCamera ⟨0, 1, 0⟩).withTransform (world.followedBy _)]
    [(movedCamera ⟨0, 0, 0⟩, [turned, stretched ⟨2, 1, 1⟩]),
      (movedCamera ⟨1, 0, 0⟩, [turned, stretched ⟨2, 1, 1⟩]),
      (movedCamera ⟨0, 1, 0⟩, [turned, stretched ⟨2, 1, 1⟩])] at hcameras
  simp only [List.forall₂_cons, Node.transform_withTransform, offset_followedBy] at hcameras
  obtain ⟨horigin, hx, hy, -⟩ := hcameras
  have houter : outer.matrix = (stretched ⟨2, 1, 1⟩).matrix := by
    have hproduct : identity.matrix * (stretched ⟨2, 1, 1⟩).matrix =
        (stretched ⟨2, 1, 1⟩).matrix := by
      norm_num [matrix_identity, matrix_stretched, Matrix.identity, Matrix.mul_eq,
        Matrix.applyColumn_eq]
    rw [houter, matrix_followedBy, hproduct]
    rw [hproduct, matrix_stretched]
    constructor <;> norm_num [Column.xyz, Vec3.dot_eq, Vec3.lengthSq_eq]
  have hproduct : outer.matrix * turned.matrix = ⟨⟨0.56, 0.96, 0, 0⟩, ⟨-1.92, 0.28, 0, 0⟩,
      ⟨0, 0, 1, 0⟩, ⟨0, 0, 0, 1⟩⟩ := by
    rw [houter, matrix_stretched, matrix_turned]
    norm_num [Matrix.mul_eq, Matrix.applyColumn_eq]
  have hlevel : world.rotation.x = 0 ∧ world.rotation.y = 0 := by
    change (ofMatrix (outer.matrix * turned.matrix)).rotation.x = 0 ∧
      (ofMatrix (outer.matrix * turned.matrix)).rotation.y = 0
    rw [hproduct]
    refine Matrix.rotationOfAxes_of_level (zero_mul _) (zero_mul _) (zero_mul _) (zero_mul _) ?_
    change 0 < 1 * (1.0 / √(0 * 0 + 0 * 0 + 1 * 1 + 0 * 0))
    norm_num
  have hdot := dot_of_level hlevel.1 hlevel.2
  have hcarry (p : Vec3 ℝ) : carry [turned, stretched ⟨2, 1, 1⟩] p =
      ⟨2 * (0.28 * p.x - 0.96 * p.y), 0.96 * p.x + 0.28 * p.y, p.z⟩ := by
    change (stretched _).matrix.apply (turned.matrix.apply p) = _
    rw [matrix_stretched, matrix_turned]
    simp only [Matrix.apply_eq, Vec3.mk.injEq]
    refine ⟨?_, ?_, ?_⟩ <;> ring
  change world.matrix.apply ⟨0, 0, 0⟩ = carry _ ⟨0, 0, 0⟩ at horigin
  change world.matrix.apply ⟨1, 0, 0⟩ = carry _ ⟨1, 0, 0⟩ at hx
  change world.matrix.apply ⟨0, 1, 0⟩ = carry _ ⟨0, 1, 0⟩ at hy
  rw [horigin, hx, hy, hcarry, hcarry, hcarry] at hdot
  norm_num [Vec3.sub_eq, Vec3.dot_eq] at hdot

/-- A camera in groups that are stretched, turned, and stretched again. -/
noncomputable def levelCamera (outer inner : Vec3 ℝ) : Node ℝ :=
  .make .group (stretched outer) .default none none
    [.make .group turned .default none none
      [.make .group (stretched inner) .default none none [movedCamera ⟨1, 1, 0⟩]]]

/-- The camera stands where it is carried, if the outer group is stretched evenly in the plane of
    the turn and mirrored across it. The inner one may be stretched in any way. -/
theorem marks_carried_levelCamera :
    Unsheared [stretched ⟨1, 5, 7⟩, turned, stretched ⟨2, 2, -3⟩] ∧
      ∃ mark, (Scene.new none [levelCamera ⟨2, 2, -3⟩ ⟨1, 5, 7⟩]).cameras = [mark] ∧
        mark.transform.offset = ⟨-9.04, 4.72, 0⟩ := by
  have hunsheared : Unsheared [stretched ⟨1, 5, 7⟩, turned, stretched ⟨2, 2, -3⟩] := by
    intro outer houter
    simp only [List.suffix_cons_iff, List.suffix_nil] at houter
    rcases houter with rfl | rfl | rfl | rfl <;> constructor <;>
      norm_num [product, Matrix.identity, matrix_stretched, matrix_turned, Matrix.mul_eq,
        Matrix.applyColumn_eq, Column.xyz, Vec3.dot_eq, Vec3.lengthSq_eq]
  have hparts : (Node.partsAllWithin [] [levelCamera ⟨2, 2, -3⟩ ⟨1, 5, 7⟩]).filter
      (fun p => p.1.kind.isCamera) =
      [(movedCamera ⟨1, 1, 0⟩, [stretched ⟨1, 5, 7⟩, turned, stretched ⟨2, 2, -3⟩])] := rfl
  have hmarks := (marks_carried none [levelCamera ⟨2, 2, -3⟩ ⟨1, 5, 7⟩]).1
  rw [hparts, List.forall₂_cons_right_iff] at hmarks
  obtain ⟨mark, _, ⟨-, hcarried⟩, hnil, hcameras⟩ := hmarks
  rw [List.forall₂_nil_right_iff.1 hnil] at hcameras
  refine ⟨hunsheared, mark, hcameras, (hcarried hunsheared).trans ?_⟩
  change (stretched ⟨2, 2, -3⟩).matrix.apply (turned.matrix.apply
    ((stretched ⟨1, 5, 7⟩).matrix.apply ⟨1, 1, 0⟩)) = _
  norm_num [matrix_stretched, matrix_turned, Matrix.apply_eq]

end Scene

/-! ## A camera in a flattened group -/

/-- A place that flattens along the second axis. -/
def flat : Transform Float := { Transform.identity with scale := ⟨1.0, 0.0, 1.0⟩ }

/-- A camera in a flattened group. -/
def flattenedCamera : Node Float :=
  .make .group flat .default none none
    [.make (.camera {}) { Transform.identity with offset := ⟨1.0, 2.0, 3.0⟩ } .default none none []]

/-- The camera is nowhere, though the flattened group takes its offset to a point. -/
theorem Scene.mark_nan_of_flattened :
    (∃ mark, (Scene.new none [flattenedCamera]).cameras = [mark] ∧
      ∀ c ∈ mark.transform.offset.toList, c.isNaN = true) ∧
    (carry [flat] ⟨1.0, 2.0, 3.0⟩ == ⟨1.0, 0.0, 3.0⟩) = true := by
  refine ⟨⟨_, rfl, ?_⟩, ?_⟩ <;> decide +kernel

end Solids
