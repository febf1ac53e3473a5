import Solids.Boolean
import Solids.Proofs.Build.Frame

/-!
# Polygons through combinations

A combination cuts the polygons of its operands along each other's planes, turns them around and
paints them, and does nothing else to them. So what polygons hand on in this (`Polygon.Inherited`)
holds of all polygons of which the mesh of a combination is made (`Mesh.combined`), and of those by
whose planes space is divided on the way (`Tree.Over`): where space cannot be divided, such a
polygon is off its own plane. What any cut keeps of a polygon (`Polygon.Kept`) is handed on.

Only the stencil paints. A union, a difference and an intersection are made of the polygons that
they leave of the trees of their operands (`Boolean.Leaves`), and to these is handed on what cutting
and turning around hand on (`Polygon.HandedOn`).

Of this kind is that a polygon has at least three vertices (`Polygon.kept_three`).
-/

namespace Solids

variable {α : Type}

/-! ## Sortings -/

/-- All polygons of a sorting. -/
def Parts.toList (parts : Parts α) : List (Polygon α) :=
  parts.onFront ++ parts.onBack ++ parts.front ++ parts.back

/-- What holds of all polygons of a sorting holds of those of each kind. -/
theorem Parts.forall_mem_toList {parts : Parts α} {P : Polygon α → Prop} :
    (∀ p ∈ parts.toList, P p) ↔ (∀ p ∈ parts.onFront, P p) ∧ (∀ p ∈ parts.onBack, P p) ∧
      (∀ p ∈ parts.front, P p) ∧ ∀ p ∈ parts.back, P p := by
  simp only [toList, List.forall_mem_append, and_assoc]

variable [Scalar α]

/-- What cutting, turning around and painting keep of a polygon. -/
structure Polygon.Kept (P : Polygon α → Prop) : Prop where
  cut : ∀ plane p, P p → ∀ q ∈ (Polygon.cut plane p).toList, P q
  flip : ∀ p : Polygon α, P p → P p.flip
  paint : ∀ (p : Polygon α) color, P p → P { p with color }

/-- What polygons hand on when they are cut along the planes of each other and turned around. -/
structure Polygon.HandedOn (P : Polygon α → Prop) : Prop where
  cut : ∀ p q, P p → P q → ∀ r ∈ (Polygon.cut q.plane p).toList, P r
  flip : ∀ p : Polygon α, P p → P p.flip

/-- What polygons hand on when they are cut along the planes of each other, turned around and
    painted. -/
structure Polygon.Inherited (P : Polygon α → Prop) : Prop extends HandedOn P where
  paint : ∀ (p : Polygon α) color, P p → P { p with color }

/-- What every cut keeps of a polygon is handed on. -/
theorem Polygon.Kept.inherited {P : Polygon α → Prop} (hP : Kept P) : Inherited P where
  cut p q hp _ := hP.cut q.plane p hp
  flip := hP.flip
  paint := hP.paint

/-! ## Trees -/

namespace Tree

variable {P : Polygon α → Prop}

/-- The tree holds polygons as `P` says, and divides space by the planes of such polygons. -/
def Over (P : Polygon α → Prop) : Tree α → Prop
  | .leaf => True
  | .node plane own front back =>
    (∃ p, P p ∧ p.plane = plane) ∧ (∀ p ∈ own, P p) ∧ front.Over P ∧ back.Over P

omit [Scalar α] in
/-- All polygons of the tree are as `P` says. -/
theorem Over.polygons {t : Tree α} (h : t.Over P) : ∀ p ∈ t.polygons, P p := by
  induction t with
  | leaf => exact fun _ hp => absurd hp List.not_mem_nil
  | node plane own front back ihfront ihback =>
    obtain ⟨-, hown, hfront, hback⟩ := h
    rw [Tree.polygons, List.forall_mem_append, List.forall_mem_append]
    exact ⟨⟨hown, ihfront hfront⟩, ihback hback⟩

end Tree

namespace Polygon.HandedOn

variable {P : Polygon α → Prop} (hP : Polygon.HandedOn P)
include hP

/-- What polygons hand on is handed on when they are sorted. -/
theorem sort {q : Polygon α} (hq : P q) {ps : List (Polygon α)} (hps : ∀ p ∈ ps, P p) :
    ∀ r ∈ (q.plane.sort ps).toList, P r := by
  induction ps with
  | nil => exact fun _ hr => absurd hr List.not_mem_nil
  | cons p ps ih =>
    obtain ⟨hp, hps⟩ := List.forall_mem_cons.1 hps
    obtain ⟨h₁, h₂, h₃, h₄⟩ := Parts.forall_mem_toList.1 (hP.cut p q hp hq)
    obtain ⟨h₁', h₂', h₃', h₄'⟩ := Parts.forall_mem_toList.1 (ih hps)
    refine Parts.forall_mem_toList.2 ⟨?_, ?_, ?_, ?_⟩ <;> refine List.forall_mem_append.2 ?_
    · exact ⟨h₁, h₁'⟩
    · exact ⟨h₂, h₂'⟩
    · exact ⟨h₃, h₃'⟩
    · exact ⟨h₄, h₄'⟩

section Division

variable {fault : Prop} (hfault : ∀ p, P p → p.liesOn p.plane = false → fault)
include hfault

/-- What polygons hand on is handed on in a tree of them, and there is one unless such a polygon is
    off its own plane. -/
theorem ofPolygons {ps : List (Polygon α)} (hps : ∀ p ∈ ps, P p) :
    Outcome (Tree.ofPolygons ps) fault (Tree.Over P) := by
  induction ps using Tree.ofPolygons.induct with
  | case1 =>
    rw [Tree.ofPolygons]
    trivial
  | case2 p ps hlies parts ihfront ihback =>
    have hp := hps p List.mem_cons_self
    obtain ⟨h₁, h₂, h₃, h₄⟩ := Parts.forall_mem_toList.1 (hP.sort hp hps)
    -- What lies in the plane of the first polygon stays here, the rest goes to the two sides.
    rw [Tree.ofPolygons, dif_pos hlies]
    refine (ihfront h₃).bind id fun front hfront => (ihback h₄).bind id fun back hback => ?_
    exact ⟨⟨p, hp, rfl⟩, List.forall_mem_append.2 ⟨h₁, h₂⟩, hfront, hback⟩
  | case3 p ps hlies =>
    rw [Tree.ofPolygons, dif_neg hlies]
    exact hfault p (hps p List.mem_cons_self) (Bool.not_eq_true _ ▸ hlies)

/-- What polygons hand on is handed on when they are put into a tree, which has a result unless such
    a polygon is off its own plane. -/
theorem insert {t : Tree α} (ht : t.Over P) {ps : List (Polygon α)} (hps : ∀ p ∈ ps, P p) :
    Outcome (t.insert ps) fault (Tree.Over P) := by
  induction t generalizing ps with
  | leaf =>
    rw [Tree.insert]
    exact hP.ofPolygons hfault hps
  | node plane own front back ihfront ihback =>
    obtain ⟨⟨q, hq, rfl⟩, hown, hfront, hback⟩ := ht
    obtain ⟨h₁, h₂, h₃, h₄⟩ := Parts.forall_mem_toList.1 (hP.sort hq hps)
    rw [Tree.insert]
    refine (ihfront hfront h₃).bind id fun front hfront =>
      (ihback hback h₄).bind id fun back hback => ⟨⟨q, hq, rfl⟩, ?_, hfront, hback⟩
    exact List.forall_mem_append.2 ⟨hown, List.forall_mem_append.2 ⟨h₁, h₂⟩⟩

end Division

/-- What polygons hand on is handed on in the complement. -/
theorem invert {t : Tree α} (ht : t.Over P) : t.invert.Over P := by
  induction t with
  | leaf => trivial
  | node plane own front back ihfront ihback =>
    obtain ⟨⟨q, hq, rfl⟩, hown, hfront, hback⟩ := ht
    refine ⟨⟨q.flip, hP.flip q hq, rfl⟩, List.forall_mem_map.2 fun p hp => ?_, ihback hback,
      ihfront hfront⟩
    exact hP.flip p (hown p hp)

/-- What polygons hand on holds of what a tree leaves of them. -/
theorem clip {t : Tree α} (ht : t.Over P) {ps : List (Polygon α)} (hps : ∀ p ∈ ps, P p) :
    ∀ p ∈ t.clip ps, P p := by
  induction t generalizing ps with
  | leaf => exact hps
  | node plane own front back ihfront ihback =>
    obtain ⟨⟨q, hq, rfl⟩, -, hfront, hback⟩ := ht
    obtain ⟨h₁, h₂, h₃, h₄⟩ := Parts.forall_mem_toList.1 (hP.sort hq hps)
    unfold Tree.clip
    refine List.forall_mem_append.2 ⟨ihfront hfront (List.forall_mem_append.2 ⟨h₃, h₁⟩), ?_⟩
    split
    · exact fun _ hp => absurd hp List.not_mem_nil
    · exact ihback hback (List.forall_mem_append.2 ⟨h₄, h₂⟩)

/-- What polygons hand on is handed on in a tree that is clipped. -/
theorem clipTo {t other : Tree α} (ht : t.Over P) (hother : other.Over P) :
    (t.clipTo other).Over P := by
  induction t with
  | leaf => trivial
  | node plane own front back ihfront ihback =>
    obtain ⟨hplane, hown, hfront, hback⟩ := ht
    exact ⟨hplane, hP.clip hother hown, ihfront hfront, ihback hback⟩

end Polygon.HandedOn

/-! ## Solids combined -/

namespace Tree

/-- The polygons that are left of the solids of two trees that are united. -/
def unite (s t : Tree α) : Except Fault (List (Polygon α)) := do
  let s := s.clipTo t
  let t := (((t.clipTo s).invert).clipTo s).invert
  return (← s.insert t.polygons).polygons

/-- The polygons that are left of the solid of a tree without that of another. -/
def subtract (s t : Tree α) : Except Fault (List (Polygon α)) := do
  let s := s.invert.clipTo t
  let t := (((t.clipTo s).invert).clipTo s).invert
  return (← s.insert t.polygons).invert.polygons

/-- The polygons that are left of what the solids of two trees have in common. -/
def intersect (s t : Tree α) : Except Fault (List (Polygon α)) := do
  let s := s.invert
  let t := (t.clipTo s).invert
  let s := s.clipTo t
  let t := t.clipTo s
  return (← s.insert t.polygons).invert.polygons

end Tree

/-- The combinations of two solids to a third, with the polygons that they leave of two trees. -/
inductive Boolean.Leaves : Boolean → (Tree α → Tree α → Except Fault (List (Polygon α))) → Prop
  | union : Leaves .union Tree.unite
  | difference : Leaves .difference Tree.subtract
  | intersection : Leaves .intersection Tree.intersect

/-- What polygons hand on is handed on to those that are left of two trees of them. -/
theorem Boolean.Leaves.outcome {op : Boolean}
    {leave : Tree α → Tree α → Except Fault (List (Polygon α))} (hop : op.Leaves leave)
    {P : Polygon α → Prop} (hP : Polygon.HandedOn P) {fault : Prop}
    (hfault : ∀ p, P p → p.liesOn p.plane = false → fault) {s t : Tree α} (hs : s.Over P)
    (ht : t.Over P) : Outcome (leave s t) fault fun ps => ∀ p ∈ ps, P p := by
  cases hop with
  | union =>
    have hs' := hP.clipTo hs ht
    have ht' := hP.invert (hP.clipTo (hP.invert (hP.clipTo ht hs')) hs')
    exact (hP.insert hfault hs' ht'.polygons).bind id fun u hu => hu.polygons
  | difference =>
    have hs' := hP.clipTo (hP.invert hs) ht
    have ht' := hP.invert (hP.clipTo (hP.invert (hP.clipTo ht hs')) hs')
    exact (hP.insert hfault hs' ht'.polygons).bind id fun u hu => (hP.invert hu).polygons
  | intersection =>
    have hs' := hP.invert hs
    have ht' := hP.invert (hP.clipTo ht hs')
    have hs'' := hP.clipTo hs' ht'
    have ht'' := hP.clipTo ht' hs''
    exact (hP.insert hfault hs'' ht''.polygons).bind id fun u hu => (hP.invert hu).polygons

/-! ## Polygons of meshes -/

namespace Mesh

/-- The corners of a triangle are vertices of the mesh. -/
theorem corners_outcome {α : Type} (m : Mesh α) (t : Triangle UInt32) :
    Outcome (m.corners t) True fun p => ∀ v ∈ p.toList, v ∈ m.vertices := by
  have hvertex (i : UInt32) : Outcome (m.vertex i) True (· ∈ m.vertices) := by
    rw [vertex]
    split
    · next v hv => exact Array.mem_of_getElem? hv
    · trivial
  refine (hvertex t.a).bind id fun a ha => (hvertex t.b).bind id fun b hb =>
    (hvertex t.c).bind id fun c hc => ?_
  change ∀ v ∈ [a, b, c], v ∈ m.vertices
  simp only [List.forall_mem_cons]
  exact ⟨ha, hb, hc, fun _ hv => absurd hv List.not_mem_nil⟩

/-- The polygon is a triangle of the mesh, on the plane through its corners. -/
def Face (m : Mesh α) (p : Polygon α) : Prop :=
  ∃ t ∈ m.triangles, ∃ c, m.corners t = .ok c ∧ p.vertices = c.toList ∧
    Plane.through? c.a c.b c.c = some p.plane

/-- The polygons of a mesh are its triangles. -/
theorem face_of_polygons (m : Mesh α) : Outcome m.polygons True fun ps => ∀ p ∈ ps, m.Face p := by
  have hpolygon : ∀ t ∈ m.triangles, Outcome (m.polygon? t) True fun r =>
      ∀ p, r = some p → m.Face p := by
    intro t ht
    refine (outcome_self (m.corners t)).bind (fun _ => trivial) fun c hc => ?_
    have hmake (color : Option Rgba) (p : Polygon α)
        (hp : Polygon.make? c.toList color = some p) : m.Face p := by
      obtain ⟨plane, hplane, rfl⟩ := Option.map_eq_some_iff.1 hp
      exact ⟨t, ht, c, hc, rfl, hplane⟩
    dsimp only
    split
    · exact (outcome_self _).bind (fun _ => trivial) fun color _ => hmake color
    · exact hmake none
  refine (Outcome.mapM hpolygon).bind id fun rs hrs p hp => ?_
  obtain ⟨r, hr, rfl⟩ := List.mem_filterMap.1 hp
  exact hrs _ hr p rfl

/-- The polygons of a mesh have three of its vertices each. -/
theorem polygons_outcome (m : Mesh α) : Outcome m.polygons True fun ps =>
    ∀ p ∈ ps, p.vertices.length = 3 ∧ ∀ v ∈ p.vertices, v ∈ m.vertices := by
  refine m.face_of_polygons.imp id fun ps hps p hp => ?_
  obtain ⟨t, _, c, hc, hvertices, _⟩ := hps p hp
  rw [hvertices]
  exact ⟨rfl, (m.corners_outcome t).of_ok hc⟩

/-! ## Combinations -/

/-- The ways to come to the mesh of a combination of two: it is one of them or nothing, made of
    polygons as `P` says, or two such meshes merged. -/
inductive Combined (P : Polygon α → Prop) (m n : Mesh α) : Mesh α → Prop
  | left : Combined P m n m
  | right : Combined P m n n
  | empty : Combined P m n .empty
  | polygons {ps : List (Polygon α)} : (∀ p ∈ ps, P p) → Combined P m n (ofPolygons ps)
  | merged {a b c : Mesh α} : Combined P m n a → Combined P m n b → a.merge b = .ok c →
      Combined P m n c

omit [Scalar α] in
/-- The mesh of a combination the other way round. -/
theorem Combined.symm {P : Polygon α → Prop} {m n r : Mesh α} (h : Combined P m n r) :
    Combined P n m r := by
  induction h with
  | left => exact .right
  | right => exact .left
  | empty => exact .empty
  | polygons hps => exact .polygons hps
  | merged _ _ hc iha ihb => exact .merged iha ihb hc

section Combine

variable {P : Polygon α → Prop} {m n : Mesh α}

/-- A combination of two solids goes on from the trees of the meshes, with the polygons that it
    leaves of them, or without trees with one of the meshes or nothing. -/
theorem exists_combine_eq_bind {op : Boolean}
    {leave : Tree α → Tree α → Except Fault (List (Polygon α))} (hop : op.Leaves leave)
    (m n : Mesh α) : ∃ go : Option (Tree α × Tree α) → Except Fault (Mesh α),
      m.combine op n = trees m n >>= go ∧
      (∀ s t, go (some (s, t)) = ofPolygons <$> leave s t) ∧
      (go none = m.orElse n ∨ go none = m.orElse .empty ∨ go none = .ok .empty) := by
  cases hop with
  | union =>
    refine ⟨_, rfl, fun s t => ?_, .inl rfl⟩
    rw [Tree.unite, map_bind]
    rfl
  | difference =>
    refine ⟨_, rfl, fun s t => ?_, .inr (.inl rfl)⟩
    rw [Tree.subtract, map_bind]
    rfl
  | intersection =>
    refine ⟨_, rfl, fun s t => ?_, .inr (.inr rfl)⟩
    rw [Tree.intersect, map_bind]
    rfl

section HandedOn

variable (hP : Polygon.HandedOn P) {fault : Prop}
  (hfault : ∀ p, P p → p.liesOn p.plane = false → fault)
  (hm : Outcome m.polygons fault fun ps => ∀ p ∈ ps, P p)
  (hn : Outcome n.polygons fault fun ps => ∀ p ∈ ps, P p)
include hP hfault hm hn

/-- The trees of two meshes are over polygons as `P` says. -/
theorem over_trees : Outcome (trees m n) fault fun r => ∀ s t, r = some (s, t) →
    s.Over P ∧ t.Over P := by
  refine hm.bind id fun ps hps => hn.bind id fun qs hqs => ?_
  split
  · exact fun _ _ h => nomatch h
  · refine (hP.ofPolygons hfault hps).bind id fun s hs =>
      (hP.ofPolygons hfault hqs).bind id fun t ht => ?_
    rintro _ _ ⟨⟩
    exact ⟨hs, ht⟩

omit hP hfault hn in
/-- One of two meshes comes of them. -/
theorem combined_orElse {other : Mesh α} (hother : Combined P m n other) :
    Outcome (m.orElse other) fault (Combined P m n) := by
  refine hm.bind id fun ps _ => ?_
  change Combined P m n (if _ then _ else _)
  split
  · exact hother
  · exact .left

/-- A combination of two solids is made of polygons that are handed on from the operands'. -/
theorem combined_of_leaves {op : Boolean}
    {leave : Tree α → Tree α → Except Fault (List (Polygon α))} (hop : op.Leaves leave) :
    Outcome (m.combine op n) fault (Combined P m n) := by
  obtain ⟨go, hgo, hsome, hidle⟩ := exists_combine_eq_bind hop m n
  rw [hgo]
  refine (over_trees hP hfault hm hn).bind id fun r hr => ?_
  cases r with
  | none =>
    rcases hidle with hidle | hidle | hidle <;> rw [hidle]
    · exact combined_orElse hm .right
    · exact combined_orElse hm .empty
    · exact .empty
  | some trees =>
    obtain ⟨hs, ht⟩ := hr trees.1 trees.2 rfl
    rw [hsome, map_eq_pure_bind]
    exact (hop.outcome hP hfault hs ht).bind id fun ps hps => .polygons hps

end HandedOn

section Inherited

variable (hP : Polygon.Inherited P) {fault : Prop}
  (hfault : ∀ p, P p → p.liesOn p.plane = false → fault)
  (hm : Outcome m.polygons fault fun ps => ∀ p ∈ ps, P p)
  (hn : Outcome n.polygons fault fun ps => ∀ p ∈ ps, P p)
include hP hfault hm hn

/-- A mesh painted by another is made of polygons that inherit from the operands'. -/
theorem combined_stencil
    (hpaint : ∀ t ∈ n.triangles, Outcome (n.vertexColor t.a) fault fun _ => True) :
    Outcome (m.stencil n) fault (Combined P m n) := by
  refine hm.bind id fun ps hps => ?_
  split
  · exact .left
  · exact .left
  · next t _ _ htriangles =>
    have ht : t ∈ n.triangles := htriangles ▸ List.mem_cons_self
    refine (hpaint t ht).bind id fun paint _ => hn.bind id fun qs hqs =>
      (hP.ofPolygons hfault hqs).bind id fun tree htree => .polygons ?_
    -- What is outside keeps its colors, what is inside is painted.
    refine List.forall_mem_append.2 ⟨hP.clip htree hps, List.forall_mem_map.2 fun p hp => ?_⟩
    exact hP.paint p (some paint) (hP.clip (hP.invert htree) hps p hp)

/-- A combination is made of polygons that inherit from the operands', and there is one unless such
    a polygon is off its own plane. Only an exclusive union may fault for an index, too. -/
theorem combined_of_ne_xor
    (hpaint : ∀ t ∈ n.triangles, Outcome (n.vertexColor t.a) fault fun _ => True) {op : Boolean}
    (hop : op ≠ .xor) : Outcome (m.combine op n) fault (Combined P m n) := by
  cases op with
  | union => exact combined_of_leaves hP.toHandedOn hfault hm hn .union
  | difference => exact combined_of_leaves hP.toHandedOn hfault hm hn .difference
  | intersection => exact combined_of_leaves hP.toHandedOn hfault hm hn .intersection
  | stencil => exact combined_stencil hP hfault hm hn hpaint
  | xor => exact absurd rfl hop

end Inherited

/-- A combination is made of kept polygons. -/
theorem combined (hP : Polygon.Kept P) (hm : ∀ ps, m.polygons = .ok ps → ∀ p ∈ ps, P p)
    (hn : ∀ ps, n.polygons = .ok ps → ∀ p ∈ ps, P p) (op : Boolean) :
    Outcome (m.combine op n) True (Combined P m n) := by
  have hm' := (outcome_self m.polygons).imp (fun _ => trivial) hm
  have hn' := (outcome_self n.polygons).imp (fun _ => trivial) hn
  have hfault : ∀ p, P p → p.liesOn p.plane = false → True := fun _ _ _ => trivial
  have hhanded := hP.inherited.toHandedOn
  by_cases hop : op = .xor
  · subst hop
    refine (combined_of_leaves hhanded hfault hm' hn' .difference).bind id fun a ha =>
      (combined_of_leaves hhanded hfault hn' hm' .difference).bind id fun b hb => ?_
    -- The second difference is taken the other way round.
    exact (outcome_self (a.merge b)).imp (fun _ => trivial) fun c hc => .merged ha hb.symm hc
  · refine combined_of_ne_xor hP.inherited hfault hm' hn' (fun t _ => ?_) hop
    exact (outcome_self (n.vertexColor t.a)).imp (fun _ => trivial) fun _ _ => trivial

end Combine

end Mesh

/-! ## Cutting -/

namespace Polygon

/-- What a plane makes of a polygon is the polygon, or a part of it with at least three of the
    vertices that are left of it off one side. -/
theorem of_mem_cut {plane : Plane α} {p q : Polygon α} (hq : q ∈ (cut plane p).toList) :
    q = p ∨ ∃ away, 3 ≤ (p.half plane away).length ∧
      q = { p with vertices := p.half plane away } := by
  have hpart (away : Side) (hq : q ∈ p.part (p.half plane away)) :
      3 ≤ (p.half plane away).length ∧ q = { p with vertices := p.half plane away } := by
    rw [part] at hq
    split at hq
    · next hlength => exact ⟨hlength, List.mem_singleton.1 hq⟩
    · cases hq
  simp only [Parts.toList, cut] at hq
  split at hq
  · split at hq <;> exact .inl (by simpa using hq)
  · exact .inl (by simpa using hq)
  · exact .inl (by simpa using hq)
  · rcases List.mem_append.1 hq with hq | hq
    · exact .inr ⟨.back, hpart _ hq⟩
    · exact .inr ⟨.front, hpart _ hq⟩

/-- The vertices of a part are vertices of the polygon, or points where the way between two of them
    is cut. -/
theorem of_mem_half {plane : Plane α} {p : Polygon α} {away : Side} {c : Vec3 α}
    (hc : c ∈ p.half plane away) :
    c ∈ p.vertices ∨ ∃ v ∈ p.vertices, ∃ w ∈ p.vertices, crossing? plane v w = some c := by
  obtain ⟨s, hs, hc⟩ := List.mem_flatMap.1 hc
  obtain ⟨hv, hw⟩ := mem_of_mem_steps hs
  rcases List.mem_append.1 hc with hc | hc
  · split at hc
    · exact absurd hc List.not_mem_nil
    · exact .inl (List.mem_singleton.1 hc ▸ hv)
  · exact .inr ⟨s.1, hv, s.2, hw, Option.mem_toList.1 hc⟩

/-- A step is cut where the plane meets it. -/
theorem eq_crossing_of_crossing? {plane : Plane α} {v w c : Vec3 α}
    (h : crossing? plane v w = some c) : c = plane.crossing v w := by
  rw [crossing?] at h
  split at h
  · exact (Option.some.inj h).symm
  · exact (Option.some.inj h).symm
  · cases h

/-- What holds of the vertices of a polygon and of the points where a plane cuts the way between two
    such is kept, as long as it is of the plane of the polygon and of that facing the other way. -/
theorem kept_of_crossing {P : Plane α → Vec3 α → Prop}
    (hcrossing : ∀ (own plane : Plane α) v w, P own v → P own w → P own (plane.crossing v w))
    (hflip : ∀ own v, P own v → P own.flip v) :
    Kept fun p : Polygon α => ∀ v ∈ p.vertices, P p.plane v where
  cut plane p hp := by
    intro q hq
    rcases of_mem_cut hq with rfl | ⟨away, _, rfl⟩
    · exact hp
    · intro c hc
      rcases of_mem_half hc with hc | ⟨v, hv, w, hw, hc⟩
      · exact hp c hc
      · rw [eq_crossing_of_crossing? hc]
        exact hcrossing _ _ _ _ (hp v hv) (hp w hw)
  flip p hp := fun v hv => hflip p.plane v (hp v (List.mem_reverse.1 hv))
  paint _ _ hp := hp

/-- A polygon keeps at least three vertices. -/
theorem kept_three : Kept fun p : Polygon α => 3 ≤ p.vertices.length where
  cut plane p hp := by
    intro q hq
    rcases of_mem_cut hq with rfl | ⟨away, hlength, rfl⟩
    · exact hp
    · exact hlength
  flip p hp := by
    rw [flip, List.length_reverse]
    exact hp
  paint _ _ hp := hp

end Polygon

end Solids
