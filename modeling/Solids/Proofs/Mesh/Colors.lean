import Solids.Proofs.Mesh.Idle
import Solids.Proofs.Mesh.Polygons

/-!
# Colors come from the operands

Whatever is left of two solids that are combined was cut from their triangles and perhaps turned
around (`Polygon.Descends`), and neither changes a color. So a vertex of a union, a difference or an
intersection is unpainted, or has the color of a painted operand at the first corner of a triangle
with an area; the vertices of each polygon have one color; and the mesh is painted just if something
is left of a painted operand (`Mesh.colors_inherited`).
-/

namespace Solids

variable {α : Type} [Scalar α]

/-! ## Descent -/

namespace Polygon

/-- The polygon was cut from `q`, along any planes, and perhaps turned around. -/
inductive Descends (q : Polygon α) : Polygon α → Prop
  | self : Descends q q
  | cut {p r : Polygon α} (plane : Plane α) : Descends q p →
      r ∈ (Polygon.cut plane p).toList → Descends q r
  | flip {p : Polygon α} : Descends q p → Descends q p.flip

/-- A polygon has the color of that from which it descends. -/
theorem Descends.color_eq {p q : Polygon α} (h : q.Descends p) : p.color = q.color := by
  induction h with
  | self => rfl
  | cut plane _ hr ih =>
    rcases of_mem_cut hr with rfl | ⟨_, -, rfl⟩
    · exact ih
    · exact ih
  | flip _ ih => exact ih

end Polygon

namespace Mesh

/-! ## What is read from a mesh -/

/-- The polygon descends from a triangle of the mesh with an area. -/
def Bears (m : Mesh α) (p : Polygon α) : Prop :=
  ∃ t ∈ m.triangles, ∃ q, m.polygon? t = .ok (some q) ∧ q.Descends p

/-- The mesh is painted, and the color is that of the first corner of a triangle with an area. -/
def Shows (m : Mesh α) (color : Rgba) : Prop :=
  m.isPainted = true ∧ ∃ t ∈ m.triangles, (∃ c plane, m.corners t = .ok c ∧
    Plane.through? c.a c.b c.c = some plane) ∧ m.vertexColor t.a = .ok color

variable {m n : Mesh α} {ps : List (Polygon α)}

/-- A triangle that is read as a polygon has an area, and the polygon is painted if the mesh is, as
    its first corner. -/
theorem exists_of_polygon?_eq {t : Triangle UInt32} {q : Polygon α}
    (h : m.polygon? t = .ok (some q)) :
    (∃ c plane, m.corners t = .ok c ∧ Plane.through? c.a c.b c.c = some plane) ∧
      q.color.isSome = m.isPainted ∧ ∀ color, q.color = some color →
        m.vertexColor t.a = .ok color := by
  obtain ⟨c, hc, h⟩ := bind_eq_ok_iff.1 h
  have hmake {color : Option Rgba} (hq : Polygon.make? c.toList color = some q) :
      (∃ c plane, m.corners t = .ok c ∧ Plane.through? c.a c.b c.c = some plane) ∧
        q.color = color := by
    obtain ⟨plane, hplane, rfl⟩ := Option.map_eq_some_iff.1 hq
    exact ⟨⟨c, plane, hc, hplane⟩, rfl⟩
  dsimp only at h
  split at h
  · next hpainted =>
    obtain ⟨_, hread, hq⟩ := bind_eq_ok_iff.1 h
    obtain ⟨color, hcolor, rfl⟩ := map_eq_ok_iff.1 hread
    obtain ⟨harea, heq⟩ := hmake (Except.ok.inj hq)
    rw [heq, hpainted]
    exact ⟨harea, rfl, fun _ hother => Option.some.inj hother ▸ hcolor⟩
  · next hpainted =>
    obtain ⟨harea, heq⟩ := hmake (Except.ok.inj h)
    rw [heq, Bool.eq_false_of_not_eq_true hpainted]
    exact ⟨harea, rfl, fun _ hother => nomatch hother⟩

/-- What is read from a mesh descends from its triangles with an area. -/
theorem bears_of_mem_polygons (hps : m.polygons = .ok ps) : ∀ p ∈ ps, m.Bears p := by
  intro p hp
  obtain ⟨rs, hrs, hread⟩ := bind_eq_ok_iff.1 hps
  cases hread
  obtain ⟨r, hr, rfl⟩ := List.mem_filterMap.1 hp
  obtain ⟨t, ht, hpolygon⟩ := exists_mem_of_forall₂ (forall₂_of_mapM_eq_ok hrs) hr
  exact ⟨t, ht, p, hpolygon, .self⟩

/-- What descends from a triangle of a mesh is painted if the mesh is, in a color that it shows. -/
theorem Bears.color {p : Polygon α} (h : m.Bears p) :
    p.color.isSome = m.isPainted ∧ ∀ color, p.color = some color → m.Shows color := by
  obtain ⟨t, ht, q, hq, hdescends⟩ := h
  obtain ⟨harea, hpainted, hcolor⟩ := exists_of_polygon?_eq hq
  rw [hdescends.color_eq]
  refine ⟨hpainted, fun color heq => ⟨?_, t, ht, harea, hcolor color heq⟩⟩
  rw [← hpainted, heq]
  rfl

/-- What descends from the triangles of two meshes is handed on. -/
theorem handedOn_bears (m n : Mesh α) : Polygon.HandedOn fun p => m.Bears p ∨ n.Bears p where
  cut _ q hp _ _ hr :=
    hp.imp (fun ⟨t, ht, o, ho, hdescends⟩ => ⟨t, ht, o, ho, .cut q.plane hdescends hr⟩)
      fun ⟨t, ht, o, ho, hdescends⟩ => ⟨t, ht, o, ho, .cut q.plane hdescends hr⟩
  flip _ hp :=
    hp.imp (fun ⟨t, ht, o, ho, hdescends⟩ => ⟨t, ht, o, ho, .flip hdescends⟩)
      fun ⟨t, ht, o, ho, hdescends⟩ => ⟨t, ht, o, ho, .flip hdescends⟩

/-! ## What is written to a mesh -/

omit [Scalar α] in
/-- The mesh of polygons is painted if one of them is. -/
theorem isPainted_ofPolygons (ps : List (Polygon α)) :
    (ofPolygons ps).isPainted = ps.any (·.color.isSome) := by
  rw [isPainted, ofPolygons]
  dsimp only
  cases ps.any (·.color.isSome) <;> rfl

section Blocks

variable {before after : List (Polygon α)} {p : Polygon α}

omit [Scalar α] in
/-- The vertices of a polygon are in its mesh after those of the polygons before it. -/
theorem getElem?_vertices_ofPolygons {i : ℕ} (hlow : (before.flatMap (·.vertices)).length ≤ i)
    (hhigh : i < (before.flatMap (·.vertices)).length + p.vertices.length) :
    (ofPolygons (before ++ p :: after)).vertices[i]? =
      p.vertices[i - (before.flatMap (·.vertices)).length]? := by
  rw [ofPolygons, List.getElem?_toArray]
  exact getElem?_flatMap_of_le _ before p after hlow hhigh

omit [Scalar α] in
/-- The vertices of a polygon have its color in the mesh. -/
theorem vertexColor_ofPolygons {i : UInt32} (hlow : (before.flatMap (·.vertices)).length ≤ i.toNat)
    (hhigh : i.toNat < (before.flatMap (·.vertices)).length + p.vertices.length) :
    (ofPolygons (before ++ p :: after)).vertexColor i = .ok (p.color.getD .unpainted) := by
  have hlengths : (before.flatMap fun q =>
      List.replicate q.vertices.length (q.color.getD .unpainted)).length =
        (before.flatMap (·.vertices)).length := by
    simp only [List.length_flatMap, List.length_replicate]
  have hget := getElem?_flatMap_of_le
    (fun q : Polygon α => List.replicate q.vertices.length (q.color.getD .unpainted)) before p after
    (hlengths.symm ▸ hlow) (by rwa [List.length_replicate, hlengths])
  rw [vertexColor, ofPolygons]
  dsimp only
  cases hpainted : (before ++ p :: after).any (·.color.isSome) with
  | true =>
    rw [if_pos rfl]
    dsimp only
    rw [List.getElem?_toArray, hget, hlengths, List.getElem?_replicate, if_pos (by omega)]
  | false =>
    -- Then the polygon is not painted, either.
    have hcolor := List.any_eq_false.1 hpainted p (by simp)
    rw [Bool.not_eq_true, Option.isSome_eq_false_iff, Option.isNone_iff_eq_none] at hcolor
    rw [if_neg Bool.false_ne_true, hcolor]
    rfl

end Blocks

omit [Scalar α] in
/-- A vertex of the mesh of polygons is unpainted or has the color of one of them. -/
theorem exists_of_vertexColor_ofPolygons {i : UInt32} {c : Rgba}
    (h : (ofPolygons ps).vertexColor i = .ok c) :
    c = .unpainted ∨ ∃ p ∈ ps, p.color = some c := by
  rw [vertexColor, ofPolygons] at h
  dsimp only at h
  split at h
  · exact .inl (Except.ok.inj h).symm
  · next colors hcolors =>
    obtain ⟨-, hcolors⟩ := Option.ite_none_right_eq_some.1 hcolors
    cases hcolors
    split at h
    · next c' hget =>
      cases h
      rw [List.getElem?_toArray] at hget
      obtain ⟨p, hp, hmem⟩ := List.mem_flatMap.1 (List.mem_of_getElem? hget)
      rw [List.eq_of_mem_replicate hmem]
      cases hcolor : p.color with
      | none => exact .inl rfl
      | some color => exact .inr ⟨p, hp, hcolor⟩
    · cases h

/-- Two meshes that have triangles with an area have trees. -/
theorem exists_trees_eq (hm : m.HasFace) (hn : n.HasFace) {r : Option (Tree α × Tree α)}
    (h : trees m n = .ok r) : ∃ s t, r = some (s, t) := by
  have hsome {m : Mesh α} (hm : m.HasFace) {ps : List (Polygon α)} (hps : m.polygons = .ok ps) :
      ps.isEmpty = false := by
    obtain ⟨p, hp⟩ := hm
    obtain ⟨color, hmem⟩ := exists_mem_polygons hps hp
    exact List.isEmpty_eq_false_iff.2 (List.ne_nil_of_mem hmem)
  obtain ⟨ps, hps, h⟩ := bind_eq_ok_iff.1 h
  obtain ⟨qs, hqs, h⟩ := bind_eq_ok_iff.1 h
  rw [hsome hm hps, hsome hn hqs] at h
  obtain ⟨s, -, h⟩ := bind_eq_ok_iff.1 h
  obtain ⟨t, -, h⟩ := bind_eq_ok_iff.1 h
  exact ⟨s, t, (Except.ok.inj h).symm⟩

/-! ## Colors of combinations -/

/-- Whatever is left of two meshes with an area that are united, subtracted or intersected descends
    from their triangles with an area. A vertex is unpainted or has a color that a painted operand
    shows; all vertices of a polygon have one color; and the mesh is painted just if something is
    left of a painted operand. -/
theorem colors_inherited (hm : m.HasFace) (hn : n.HasFace) {op : Boolean}
    {leave : Tree α → Tree α → Except Fault (List (Polygon α))} (hop : op.Leaves leave)
    {r : Mesh α} (hr : m.combine op n = .ok r) :
    ∃ s t ps, trees m n = .ok (some (s, t)) ∧ leave s t = .ok ps ∧ r = ofPolygons ps ∧
      (∀ p ∈ ps, m.Bears p ∨ n.Bears p) ∧
      (∀ i c, r.vertexColor i = .ok c → c = .unpainted ∨ m.Shows c ∨ n.Shows c) ∧
      (∀ before p after, ps = before ++ p :: after → ∃ c, ∀ i : UInt32,
        (before.flatMap (·.vertices)).length ≤ i.toNat →
        i.toNat < (before.flatMap (·.vertices)).length + p.vertices.length →
          r.vertices[i.toNat]? = p.vertices[i.toNat - (before.flatMap (·.vertices)).length]? ∧
            r.vertexColor i = .ok c) ∧
      (r.isPainted = false ↔
        ∀ p ∈ ps, ¬(m.isPainted = true ∧ m.Bears p) ∧ ¬(n.isPainted = true ∧ n.Bears p)) := by
  obtain ⟨go, hgo, hsome, -⟩ := exists_combine_eq_bind hop m n
  obtain ⟨trees, htrees, hr⟩ := bind_eq_ok_iff.1 (hgo ▸ hr)
  obtain ⟨s, t, rfl⟩ := exists_trees_eq hm hn htrees
  rw [hsome] at hr
  obtain ⟨ps, hps, rfl⟩ := map_eq_ok_iff.1 hr
  have hread {x : Mesh α} (hx : ∀ p, x.Bears p → m.Bears p ∨ n.Bears p) :
      Outcome x.polygons True fun ps => ∀ p ∈ ps, m.Bears p ∨ n.Bears p :=
    (outcome_self x.polygons).imp (fun _ => trivial) fun ps hps p hp =>
      hx p (bears_of_mem_polygons hps p hp)
  have hhanded := handedOn_bears m n
  obtain ⟨hs, ht⟩ := (over_trees hhanded (fun _ _ _ => trivial) (hread fun _ => .inl)
    (hread fun _ => .inr)).of_ok htrees s t rfl
  have hbears : ∀ p ∈ ps, m.Bears p ∨ n.Bears p :=
    (hop.outcome hhanded (fun _ _ _ => trivial) hs ht).of_ok hps
  refine ⟨s, t, ps, htrees, hps, rfl, hbears, fun i c hc => ?_, ?_, ?_⟩
  · refine (exists_of_vertexColor_ofPolygons hc).imp id fun ⟨p, hp, hcolor⟩ => ?_
    exact (hbears p hp).imp (fun h => h.color.2 c hcolor) fun h => h.color.2 c hcolor
  · rintro before p after rfl
    exact ⟨_, fun i hlow hhigh =>
      ⟨getElem?_vertices_ofPolygons hlow hhigh, vertexColor_ofPolygons hlow hhigh⟩⟩
  · rw [isPainted_ofPolygons, List.any_eq_false]
    refine forall₂_congr fun p hp => ⟨fun hcolor => ⟨?_, ?_⟩, fun hnone hcolor => ?_⟩
    · exact fun ⟨hpainted, h⟩ => hcolor (h.color.1.trans hpainted)
    · exact fun ⟨hpainted, h⟩ => hcolor (h.color.1.trans hpainted)
    · rcases hbears p hp with h | h
      · exact hnone.1 ⟨h.color.1.symm.trans hcolor, h⟩
      · exact hnone.2 ⟨h.color.1.symm.trans hcolor, h⟩

/-- A triangle that is red at its first corner, and green and blue at the others. -/
def pennant : Mesh Float where
  vertices := #[⟨0.0, 0.0, 0.0⟩, ⟨2.0, 0.0, 0.0⟩, ⟨0.0, 2.0, 0.0⟩]
  triangles := [⟨0, 1, 2⟩]
  colors := some #[⟨1.0, 0.0, 0.0, 1.0⟩, ⟨0.0, 1.0, 0.0, 1.0⟩, ⟨0.0, 0.0, 1.0, 1.0⟩]

/-- An upright triangle without colors that is stuck in the pennant. -/
def blade : Mesh Float where
  vertices := #[⟨0.5, -1.0, -1.0⟩, ⟨0.5, 2.0, -1.0⟩, ⟨0.5, 0.0, 2.0⟩]
  triangles := [⟨0, 1, 2⟩]

/-- A blade that is united with a pennant is painted, in no color but those that the pennant
    shows. -/
theorem colors_inherited_pennant : pennant.HasFace ∧ blade.HasFace ∧
    ∃ r, blade.combine .union pennant = .ok r ∧ r.isPainted = true ∧ r.triangleCount = 2 ∧
      ∀ i c, r.vertexColor i = .ok c → c = .unpainted ∨ pennant.Shows c := by
  have hpennant : pennant.HasFace := (hasFace_iff (by decide) false (by decide +kernel)).2 rfl
  have hblade : blade.HasFace := (hasFace_iff (by decide) false (by decide +kernel)).2 rfl
  have hcounts : (blade.combine .union pennant).map (fun r => (r.isPainted, r.triangleCount)) =
      .ok (true, 2) := by decide +kernel
  obtain ⟨r, hr, hcounts⟩ := map_eq_ok_iff.1 hcounts
  obtain ⟨hpainted, hcount⟩ := Prod.ext_iff.1 hcounts
  obtain ⟨_, _, _, -, -, -, -, hcolors, -⟩ := colors_inherited hblade hpennant .union hr
  refine ⟨hpennant, hblade, r, hr, hpainted, hcount, fun i c hc => ?_⟩
  -- The blade is not painted.
  exact (hcolors i c hc).imp_right fun h => h.resolve_left fun h => Bool.false_ne_true h.1

end Mesh

end Solids
