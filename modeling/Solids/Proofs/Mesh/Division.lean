import Solids.Proofs.Mesh.Booleans
import Solids.Proofs.Mesh.Cutting
import Solids.Proofs.Mesh.Reads

/-!
# Where the division of space ends

Polygons are put into a tree by handing each down to the sides of the planes where it is, and where
there is no plane, that of the first polygon is taken. Nothing bounds this recursion beforehand: it
is the relation `Tree.Grown`, whose derivations are its finite courses. `Tree.insert`, which looks
first whether a polygon lies on its own plane, has a result just where the recursion ends, and the
same one (`Tree.grown_iff`): a polygon off its own plane stays so when it is cut, and is the first
on some side again, so it would be handed down forever (`Tree.Grown.liesOn`).

What becomes of polygons that are cut along the planes of each other are their fragments
(`Polygon.Fragment`). If all those of two well-formed meshes lie on their planes, space can be
divided by them in every order, and the meshes can be combined (`Mesh.WellFormed.divides`).
-/

namespace Solids

variable {α : Type} [Scalar α]

/-! ## Sorting by the plane of the first -/

/-- Sorting nothing leaves nothing. -/
theorem Plane.sort_nil (plane : Plane α) : plane.sort [] = {} := rfl

/-- A polygon off its own plane is the first again on one of the sides of the plane, whole or what
    is left of it, and still off it. -/
theorem Plane.exists_sort_eq_cons {p : Polygon α} (hoff : p.liesOn p.plane = false)
    (ps : List (Polygon α)) : ∃ q qs, q.plane = p.plane ∧ q.liesOn q.plane = false ∧
      ((p.plane.sort (p :: ps)).front = q :: qs ∨ (p.plane.sort (p :: ps)).back = q :: qs) := by
  have htouches := Polygon.liesOn_eq_false_iff.1 hoff
  cases hfront : p.touches p.plane .front <;> cases hback : p.touches p.plane .back
  · simp only [hfront, hback, Bool.false_eq_true, or_self] at htouches
  · refine ⟨p, (p.plane.sort ps).back, rfl, hoff, .inr ?_⟩
    simp only [sort, List.foldr_cons, Parts.append, Polygon.cut, hfront, hback,
      List.singleton_append]
  · refine ⟨p, (p.plane.sort ps).front, rfl, hoff, .inl ?_⟩
    simp only [sort, List.foldr_cons, Parts.append, Polygon.cut, hfront, hback,
      List.singleton_append]
  · -- The part in front keeps a vertex that is there.
    obtain ⟨v, hv, hside⟩ := Polygon.touches_iff.1 hfront
    refine ⟨{ p with vertices := p.half p.plane .back }, (p.plane.sort ps).front, rfl, ?_, .inl ?_⟩
    · refine Polygon.liesOn_eq_false_iff.2 (.inl (Polygon.touches_iff.2 ⟨v, ?_, hside⟩))
      exact Polygon.mem_half hv (by rw [hside]; decide)
    · simp only [sort, List.foldr_cons, Parts.append, Polygon.cut_eq_of_touches hfront hback,
        List.singleton_append]

/-! ## Growing trees -/

namespace Tree

variable {t t' : Tree α} {ps : List (Polygon α)}

/-- How a tree grows by polygons: without any it stays, one without a plane takes that of the first,
    and what is in front of the plane and behind it grows on there. A derivation is a course of this
    recursion that comes to an end. -/
inductive Grown : Tree α → List (Polygon α) → Tree α → Prop
  | nothing (t : Tree α) : Grown t [] t
  | first {p : Polygon α} {ps : List (Polygon α)} {front back : Tree α} :
      Grown .leaf (p.plane.sort (p :: ps)).front front →
      Grown .leaf (p.plane.sort (p :: ps)).back back →
      Grown .leaf (p :: ps) (.node p.plane
        ((p.plane.sort (p :: ps)).onFront ++ (p.plane.sort (p :: ps)).onBack) front back)
  | further {plane : Plane α} {own : List (Polygon α)} {front back front' back' : Tree α}
      {p : Polygon α} {ps : List (Polygon α)} :
      Grown front (plane.sort (p :: ps)).front front' →
      Grown back (plane.sort (p :: ps)).back back' →
      Grown (.node plane own front back) (p :: ps) (.node plane
        (own ++ ((plane.sort (p :: ps)).onFront ++ (plane.sort (p :: ps)).onBack)) front' back')

/-- The recursion does not end for a polygon that is the first off its own plane. -/
theorem Grown.liesOn {p : Polygon α} (h : Grown .leaf (p :: ps) t') : p.liesOn p.plane = true := by
  generalize hleaf : (Tree.leaf : Tree α) = t at h
  generalize hqs : p :: ps = qs at h
  induction h generalizing p ps with
  | nothing t => cases hqs
  | further => cases hleaf
  | @first q qs front back _ _ ihfront ihback =>
    cases hqs
    by_contra hoff
    obtain ⟨r, rs, -, hr, hfirst⟩ := Plane.exists_sort_eq_cons (Bool.eq_false_iff.2 hoff) qs
    refine Bool.eq_false_iff.1 hr ?_
    rcases hfirst with hfirst | hfirst
    · exact ihfront rfl hfirst.symm
    · exact ihback rfl hfirst.symm

/-- A tree stays as it is without polygons. -/
theorem insert_nil (t : Tree α) : t.insert [] = .ok t := by
  induction t with
  | leaf => rw [insert, ofPolygons]
  | node plane own front back ihfront ihback =>
    rw [insert, Plane.sort_nil, ihfront, ihback, List.append_nil, List.append_nil]
    rfl

/-- What a tree grows to is what the polygons put into it make. -/
theorem Grown.insert_eq (h : t.Grown ps t') : t.insert ps = .ok t' := by
  induction h with
  | nothing t => exact t.insert_nil
  | first hfront hback ihfront ihback =>
    have hlies := (Grown.first hfront hback).liesOn
    rw [insert] at ihfront ihback
    rw [insert, ofPolygons, dif_pos hlies]
    dsimp only
    rw [ihfront, ihback]
    rfl
  | further _ _ ihfront ihback =>
    rw [insert]
    rw [ihfront, ihback]
    rfl

/-- The tree that is made of polygons grows of them. -/
theorem grown_ofPolygons (ps : List (Polygon α)) :
    Outcome (ofPolygons ps) True (Grown .leaf ps) := by
  induction ps using ofPolygons.induct with
  | case1 =>
    rw [ofPolygons]
    exact .nothing _
  | case2 p ps hlies parts ihfront ihback =>
    rw [ofPolygons, dif_pos hlies]
    exact ihfront.bind id fun front hfront => ihback.bind id fun back hback =>
      .first hfront hback
  | case3 p ps hlies =>
    rw [ofPolygons, dif_neg hlies]
    trivial

/-- The tree that polygons put into it make grows of the tree. -/
theorem grown_insert (t : Tree α) (ps : List (Polygon α)) :
    Outcome (t.insert ps) True (t.Grown ps) := by
  induction t generalizing ps with
  | leaf => exact grown_ofPolygons ps
  | node plane own front back ihfront ihback =>
    cases ps with
    | nil =>
      rw [insert_nil]
      exact .nothing _
    | cons p ps =>
      rw [insert]
      exact (ihfront _).bind id fun front hfront => (ihback _).bind id fun back hback =>
        .further hfront hback

/-- Putting polygons into a tree has a result just where the recursion ends, and the same. -/
theorem grown_iff : t.Grown ps t' ↔ t.insert ps = .ok t' :=
  ⟨Grown.insert_eq, fun h => (grown_insert t ps).of_ok h⟩

end Tree

/-! ## Fragments -/

/-- What becomes of polygons that are cut along the planes of each other, turned around and
    painted. -/
inductive Polygon.Fragment (P : Polygon α → Prop) : Polygon α → Prop
  | whole {p : Polygon α} : P p → Fragment P p
  | cut {p q r : Polygon α} : Fragment P p → Fragment P q →
      r ∈ (Polygon.cut q.plane p).toList → Fragment P r
  | flip {p : Polygon α} : Fragment P p → Fragment P p.flip
  | paint {p : Polygon α} (color : Option Rgba) : Fragment P p → Fragment P { p with color }

namespace Polygon.Fragment

variable {P Q : Polygon α → Prop}

/-- Fragments of fragments are fragments. -/
theorem inherited (P : Polygon α → Prop) : Inherited (Fragment P) where
  cut _ _ hp hq _ hr := .cut hp hq hr
  flip _ hp := .flip hp
  paint _ color hp := .paint color hp

/-- What the polygons have and hand on, their fragments have. -/
theorem of_inherited (hQ : Inherited Q) (hPQ : ∀ p, P p → Q p) {p : Polygon α}
    (h : Fragment P p) : Q p := by
  induction h with
  | whole hp => exact hPQ _ hp
  | cut _ _ hr ihp ihq => exact hQ.cut _ _ ihp ihq _ hr
  | flip _ ih => exact hQ.flip _ ih
  | paint color _ ih => exact hQ.paint _ color ih

end Polygon.Fragment

/-! ## Combinations -/

namespace Mesh

/-- A triangle of one of two meshes, on the plane through its corners. -/
def Facet (m n : Mesh α) (p : Polygon α) : Prop := m.Face p ∨ n.Face p

/-- Whatever becomes of the triangles of two meshes lies on its plane, to within the tolerance. -/
def Flat (m n : Mesh α) : Prop :=
  ∀ p, Polygon.Fragment (Facet m n) p → p.liesOn p.plane = true

/-- The division of space by the triangles of two meshes ends. -/
structure Divides (m n : Mesh α) : Prop where
  /-- A tree over fragments of the triangles grows by such fragments to an end. -/
  grown : ∀ t ps, t.Over (Polygon.Fragment (Facet m n)) →
    (∀ p ∈ ps, Polygon.Fragment (Facet m n) p) → ∃ t', Tree.Grown t ps t'
  /-- The meshes are combined to a well-formed one. -/
  combine : ∀ op, op ≠ Boolean.xor → ∃ r, m.combine op n = .ok r ∧ r.WellFormed

/-- What becomes of the triangles of two meshes lies on its plane, if what they hand on says so. -/
theorem flat_of_inherited {P : Polygon α → Prop} (hP : Polygon.Inherited P)
    (hlies : ∀ p, P p → p.liesOn p.plane = true) {m n : Mesh α} (hm : ∀ p, m.Face p → P p)
    (hn : ∀ p, n.Face p → P p) : m.Flat n := by
  intro p hp
  exact hlies p (hp.of_inherited hP fun q hq => hq.elim (hm q) (hn q))

namespace WellFormed

variable {m n : Mesh α}

omit [Scalar α] in
/-- The color of a corner is read without a fault. -/
theorem reads_vertexColor (h : m.WellFormed) {t : Triangle UInt32} (ht : t ∈ m.triangles) :
    Outcome (m.vertexColor t.a) False fun _ => True := by
  rw [Mesh.vertexColor]
  split
  · trivial
  · next colors hcolors =>
    rw [Array.getElem?_eq_getElem (h.size_colors colors hcolors ▸ (h.corner_lt t ht).1)]
    trivial

/-- The triangles of a well-formed mesh are read as polygons without a fault. -/
theorem reads_polygons (h : m.WellFormed) :
    Outcome m.polygons False fun ps => ∀ p ∈ ps, m.Face p := by
  have hpolygon : ∀ t ∈ m.triangles, Outcome (m.polygon? t) False fun _ => True := by
    intro t ht
    obtain ⟨ha, hb, hc⟩ := h.corner_lt t ht
    have hcorners := corners_of_getElem? (p := ⟨_, _, _⟩) (Array.getElem?_eq_getElem ha)
      (Array.getElem?_eq_getElem hb) (Array.getElem?_eq_getElem hc)
    rw [polygon?, hcorners]
    change Outcome (if m.isPainted then _ else _) _ _
    split
    · obtain ⟨color, hcolor, -⟩ := (h.reads_vertexColor ht).exists_ok
      rw [hcolor]
      trivial
    · trivial
  obtain ⟨rs, hrs, -⟩ := (Outcome.mapM hpolygon).exists_ok
  have hpolygons : m.polygons = .ok (rs.filterMap id) := by
    rw [Mesh.polygons, hrs]
    rfl
  have hfaces := m.face_of_polygons
  rw [hpolygons] at hfaces ⊢
  exact hfaces

/-- Well-formed meshes are combined to a well-formed one, and space is divided by them in whatever
    order, if all that becomes of their triangles lies on its plane. -/
theorem divides (hm : m.WellFormed) (hn : n.WellFormed) (hflat : m.Flat n) : m.Divides n := by
  have hfault : ∀ p, Polygon.Fragment (Facet m n) p → p.liesOn p.plane = false → False :=
    fun p hp hoff => Bool.false_ne_true (hoff.symm.trans (hflat p hp))
  have hinherited := Polygon.Fragment.inherited (Facet m n)
  refine ⟨fun t ps ht hps => ?_, fun op hop => ?_⟩
  · obtain ⟨t', ht', -⟩ := (hinherited.insert hfault ht hps).exists_ok
    exact ⟨t', Tree.grown_iff.2 ht'⟩
  · have hreadm : Outcome m.polygons False fun ps => ∀ p ∈ ps, Polygon.Fragment (Facet m n) p :=
      hm.reads_polygons.imp id fun ps hps p hp => .whole (.inl (hps p hp))
    have hreadn : Outcome n.polygons False fun ps => ∀ p ∈ ps, Polygon.Fragment (Facet m n) p :=
      hn.reads_polygons.imp id fun ps hps p hp => .whole (.inr (hps p hp))
    obtain ⟨r, hr, -⟩ := (combined_of_ne_xor hinherited hfault hreadm hreadn
      (fun t ht => hn.reads_vertexColor ht) hop).exists_ok
    have hsafe := hm.combine op hn
    rw [hr] at hsafe
    exact ⟨r, hr, hsafe⟩

end WellFormed

/-- A mesh whose first polygon is off its own plane is not combined with another one that has a
    polygon, since its division does not end. Only the stencil does not divide its first operand. -/
theorem combine_eq_error {m n : Mesh α} {p q : Polygon α} {ps qs : List (Polygon α)}
    (hm : m.polygons = .ok (p :: ps)) (hn : n.polygons = .ok (q :: qs))
    (hoff : p.liesOn p.plane = false) {op : Boolean} (hop : op ≠ .stencil) :
    m.combine op n = .error .endlessDivision := by
  have htrees : trees m n = .error .endlessDivision := by
    rw [trees, hm, hn]
    change (do return some (← Tree.ofPolygons (p :: ps), ← Tree.ofPolygons (q :: qs))) = _
    rw [Tree.ofPolygons, dif_neg (Bool.eq_false_iff.1 hoff)]
    rfl
  have hdifference : m.difference n = .error .endlessDivision := by
    rw [difference, htrees]
    rfl
  cases op with
  | union =>
    rw [combine, union, htrees]
    rfl
  | difference => exact hdifference
  | intersection =>
    rw [combine, intersection, htrees]
    rfl
  | xor =>
    rw [combine, xor, hdifference]
    rfl
  | stencil => exact absurd rfl hop

end Mesh

end Solids
