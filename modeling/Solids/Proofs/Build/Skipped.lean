import Solids.Build.Construct
import Solids.Proofs.Mesh.Idle

/-!
# Children that are skipped

A child without triangles is no operand: a combination comes out as without it, triangle by
triangle (`Kind.construct_skips`), unless nothing is left with it, which is said where that is so.
Behind another child it is dropped. In front of the others it stays as a mesh to start from, and
that the first of them is combined with it must not be seen.

It is seen if what comes after it has triangles, none of which has an area. An exclusive union then
starts anew with nothing, where it would have left the triangles alone
(`Kind.construct_groupAndThread`).
-/

namespace Solids

variable {α : Type}

/-- The triangles of a mesh with the places and colors of their corners, in order. -/
def Mesh.shown (m : Mesh α) : Except Fault (List (Triangle (Vec3 α × Rgba))) :=
  m.triangles.mapM fun t => t.mapM fun i => do return (← m.vertex i, ← m.vertexColor i)

/-- A mesh without triangles shows nothing. -/
theorem Mesh.shown_of_isEmpty {m : Mesh α} (h : m.isEmpty = true) : m.shown = .ok [] := by
  rw [shown, List.isEmpty_iff.1 h]
  rfl

variable [Scalar α]

namespace Boolean

open Mesh (shown)

variable {op : Boolean} {m m' x : Mesh α} {ms before after : List (Mesh α)}

/-- The operation starts with whatever comes first. -/
def Starts (op : Boolean) : Prop := op = .union ∨ op = .xor

/-- Of what comes after a child without triangles only the first has any, and none with an area. -/
def Flat (after : List (Mesh α)) : Prop :=
  ∃ x rest, after = x :: rest ∧ x.isEmpty = false ∧ ¬x.HasFace ∧ ∀ y ∈ rest, y.isEmpty = true

/-- What is combined with a mesh that encloses nothing does not depend on that mesh. -/
theorem combine_congr (hop : op.Starts) (hm : m.polygons = .ok []) (hm' : m'.polygons = .ok [])
    (hx : x.WellFormed) : m.combine op x = m'.combine op x := by
  obtain ⟨qs, hqs, -, -⟩ := hx.exists_polygons
  obtain rfl | rfl := hop
  · exact (Mesh.union_eq hm hqs (.inl rfl)).trans (Mesh.union_eq hm' hqs (.inl rfl)).symm
  · exact (Mesh.xor_eq_right hm hqs rfl).trans (Mesh.xor_eq_right hm' hqs rfl).symm

/-- What follows on a mesh that encloses nothing does not depend on that mesh, if something does. -/
theorem foldlM_congr (hop : op.Starts) (hm : m.polygons = .ok []) (hm' : m'.polygons = .ok [])
    (hms : ∀ x ∈ ms, x.WellFormed) (hne : ms ≠ []) :
    ms.foldlM (Mesh.combine op) m = ms.foldlM (Mesh.combine op) m' := by
  obtain ⟨x, rest, rfl⟩ := List.exists_cons_of_ne_nil hne
  rw [List.foldlM_cons, List.foldlM_cons, combine_congr hop hm hm' (hms x List.mem_cons_self)]

/-- A mesh that encloses nothing gives way to what it is combined with, except that an exclusive
    union drops triangles without an area. -/
theorem combine_eq (hop : op.Starts) (hm : m.polygons = .ok []) (hx : x.WellFormed)
    (hface : op = .xor → x.HasFace) : m.combine op x = .ok x := by
  obtain ⟨qs, hqs, -, hiff⟩ := hx.exists_polygons
  obtain rfl | rfl := hop
  · exact Mesh.union_eq hm hqs (.inl rfl)
  · refine (Mesh.xor_eq_right hm hqs rfl).trans (congrArg _ (if_neg ?_))
    exact mt hiff.1 (not_not.2 (hface rfl))

/-- A mesh without triangles behind another one is dropped. -/
theorem combineAll_drop (hop : op ≠ .intersection) (hx : x.isEmpty = true)
    (hbefore : before ≠ []) :
    op.combineAll (before ++ x :: after) = op.combineAll (before ++ after) := by
  obtain ⟨first, rest, rfl⟩ := List.exists_cons_of_ne_nil hbefore
  simp only [List.cons_append, combineAll, hop, false_and, if_false, List.filter_append,
    List.filter_cons, hx, Bool.not_true, Bool.false_eq_true]

/-- A mesh without triangles in front of others makes no difference to what is shown in the end. -/
theorem shown_combineAll_cons (hop : op.Starts) (hm : m.isEmpty = true)
    (hafter : ∀ x ∈ after, x.WellFormed) (hflat : op = .xor → ¬Flat after) :
    op.combineAll (m :: after) >>= shown = op.combineAll after >>= shown := by
  have hstart (first : Mesh α) (rest : List (Mesh α)) : op.combineAll (first :: rest) =
      (rest.filter fun x => !x.isEmpty).foldlM (Mesh.combine op) first := by
    obtain rfl | rfl := hop <;> simp [combineAll, needsFirst]
  have hidle := Mesh.polygons_of_isEmpty hm
  cases after with
  | nil =>
    rw [hstart]
    exact Mesh.shown_of_isEmpty hm
  | cons x rest =>
    obtain ⟨hx, hrest⟩ := List.forall_mem_cons.1 hafter
    have hfiltered : ∀ y ∈ rest.filter fun y => !y.isEmpty, y.WellFormed :=
      fun y hy => hrest y (List.mem_of_mem_filter hy)
    rw [hstart, hstart, List.filter_cons]
    generalize hys : rest.filter (fun y => !y.isEmpty) = ys at hfiltered
    cases hempty : x.isEmpty with
    | true =>
      rw [if_neg (by simp)]
      by_cases hnil : ys = []
      · subst hnil
        exact (Mesh.shown_of_isEmpty hm).trans (Mesh.shown_of_isEmpty hempty).symm
      · rw [foldlM_congr hop hidle (Mesh.polygons_of_isEmpty hempty) hfiltered hnil]
    | false =>
      rw [if_pos (by simp), List.foldlM_cons]
      by_cases hstays : op = .xor → x.HasFace
      · rw [combine_eq hop hidle hx hstays]
        rfl
      · -- Its triangles are dropped, but something with triangles comes after them.
        obtain ⟨rfl, hface⟩ : op = .xor ∧ ¬x.HasFace := Classical.not_imp.1 hstays
        obtain ⟨qs, hqs, -, hiff⟩ := hx.exists_polygons
        obtain rfl := List.isEmpty_iff.1 (hiff.2 hface)
        have hnil : ys ≠ [] := by
          rintro rfl
          refine hflat rfl ⟨x, rest, rfl, hempty, hface, fun y hy => ?_⟩
          simpa using List.filter_eq_nil_iff.1 hys y hy
        rw [Mesh.combine, Mesh.xor_eq_right hidle hqs rfl, List.isEmpty_nil, if_pos rfl]
        refine congrArg (· >>= shown) ?_
        exact foldlM_congr hop (Mesh.polygons_of_isEmpty rfl) hqs hfiltered hnil

/-- A mesh without triangles makes no difference to what is shown in the end, unless nothing else
    is left, or nothing is to be left without it. -/
theorem shown_combineAll (hop : op ≠ .intersection) (hm : m.isEmpty = true)
    (hfirst : op.needsFirst = true → before ≠ [])
    (hafter : before = [] → ∀ x ∈ after, x.WellFormed)
    (hflat : op = .xor → before = [] → ¬Flat after) :
    op.combineAll (before ++ m :: after) >>= shown = op.combineAll (before ++ after) >>= shown := by
  by_cases hbefore : before = []
  · subst hbefore
    have hstarts : op.Starts := by
      cases op with
      | union => exact .inl rfl
      | xor => exact .inr rfl
      | intersection => exact absurd rfl hop
      | difference => exact absurd rfl (hfirst rfl)
      | stencil => exact absurd rfl (hfirst rfl)
    exact shown_combineAll_cons hstarts hm (hafter rfl) fun hxor => hflat hxor rfl
  · rw [combineAll_drop hop hm hbefore]

/-- Nothing is left of an intersection with a mesh without triangles, and nothing where what is cut
    from or painted on has none. -/
theorem combineAll_eq_empty (hm : m.isEmpty = true)
    (hop : op = .intersection ∨ op.needsFirst = true ∧ before = []) :
    op.combineAll (before ++ m :: after) = .ok .empty := by
  rcases hop with rfl | ⟨hfirst, rfl⟩
  · obtain ⟨first, rest, hcons⟩ := List.exists_cons_of_ne_nil
      (List.append_ne_nil_of_right_ne_nil before (List.cons_ne_nil m after))
    have hany : (before ++ m :: after).any (·.isEmpty) = true := by simp [hm]
    rw [hcons] at hany ⊢
    exact if_pos ⟨rfl, hany⟩
  · rw [List.nil_append, combineAll]
    split
    · rfl
    · exact if_pos ⟨hfirst, hm⟩

end Boolean

/-! ## Combinations of children -/

namespace Kind

variable {op : Boolean} {before after : List (Node α)} {c : Node α} {m : Mesh α}

/-- A child that draws no triangles is skipped: what a union, an exclusive union, a difference or a
    stencil shows is the same without it, unless it is what there is to cut from or to paint on, or
    an exclusive union is left with triangles of one child of which none has an area. An
    intersection, and a difference or a stencil that starts with it, have no triangles. -/
theorem construct_skips (hc : c.flattened = .ok m) (hm : m.isEmpty = true)
    (hafter : before = [] → ∀ d ∈ after, ∀ x, d.flattened = .ok x → x.WellFormed) :
    (op ≠ .intersection → (op.needsFirst = true → before ≠ []) →
      (op = .xor → before = [] → ∀ xs, after.mapM Node.flattened = .ok xs → ¬Boolean.Flat xs) →
      (construct (.combination op) (before ++ c :: after) >>= Mesh.shown) =
        (construct (.combination op) (before ++ after) >>= Mesh.shown)) ∧
    (op = .intersection ∨ op.needsFirst = true ∧ before = [] →
      ∀ xs, (before ++ c :: after).mapM Node.flattened = .ok xs →
        construct (.combination op) (before ++ c :: after) = .ok .empty) := by
  have hwith : (before ++ c :: after).mapM Node.flattened = (do
      let ms ← before.mapM Node.flattened
      let ns ← after.mapM Node.flattened
      return ms ++ m :: ns) := by
    rw [List.mapM_append, List.mapM_cons, hc]
    cases before.mapM Node.flattened with
    | error e => rfl
    | ok ms => cases after.mapM Node.flattened <;> rfl
  rw [construct, construct, hwith, List.mapM_append]
  cases hms : before.mapM Node.flattened with
  | error e => exact ⟨fun _ _ _ => rfl, fun _ _ h => nomatch h⟩
  | ok ms =>
    cases hns : after.mapM Node.flattened with
    | error e => exact ⟨fun _ _ _ => rfl, fun _ _ h => nomatch h⟩
    | ok ns =>
      -- The meshes of the other children are as many, and well formed.
      have hfirst : ms = [] ↔ before = [] := by
        have hlength := (Mesh.forall₂_of_mapM_eq_ok hms).length_eq
        rw [← List.length_eq_zero_iff, ← hlength, List.length_eq_zero_iff]
      have hformed : ms = [] → ∀ x ∈ ns, x.WellFormed := fun hnil x hx => by
        obtain ⟨d, hd, hx⟩ := exists_mem_of_forall₂ (Mesh.forall₂_of_mapM_eq_ok hns) hx
        exact hafter (hfirst.1 hnil) d hd x hx
      constructor
      · intro hop hneeds hflat
        exact Boolean.shown_combineAll hop hm (fun h => mt hfirst.1 (hneeds h)) hformed
          fun hxor hnil => hflat hxor (hfirst.1 hnil) ns rfl
      · intro hop xs _
        exact Boolean.combineAll_eq_empty hm (hop.imp_right fun h => ⟨h.1, hfirst.2 h.2⟩)

section Mixing

attribute [local instance] KeyDigest.mixing

/-- A part that is built with a mesh of its own. -/
def builtPart (m : Mesh Float) : Node Float :=
  { Node.new (.mesh m) with state := .built, mesh := some m }

/-- A union of a group without children and a cube shows the cube. -/
theorem construct_groupAndCube : ∃ m, (Node.new .group : Node Float).flattened = .ok m ∧
    m.isEmpty = true ∧
    (construct (.combination .union) [Node.new .group, builtPart Primitive.cube] >>= Mesh.shown) =
      (construct (.combination .union) [builtPart Primitive.cube] >>= Mesh.shown) := by
  have hgroup : Outcome (Node.new .group : Node Float).flattened False (·.isEmpty = true) := by
    decide +kernel
  have hcube : Outcome (builtPart Primitive.cube).flattened True Mesh.WellFormed := by
    decide +kernel
  obtain ⟨m, hflattened, hm⟩ := hgroup.exists_ok
  obtain ⟨hskips, -⟩ := @construct_skips Float _ .union [] [builtPart Primitive.cube] _ m
    hflattened hm fun _ => List.forall_mem_singleton.2 fun _ hx => hcube.of_ok hx
  exact ⟨m, hflattened, hm, hskips (by decide) (by decide) fun h => nomatch h⟩

/-- An exclusive union of a group without children and a triangle without an area shows nothing,
    and without the group the triangle. -/
theorem construct_groupAndThread :
    (Node.new .group : Node Float).flattened.map Mesh.isEmpty = .ok true ∧
    (construct (.combination .xor) [Node.new .group, builtPart Mesh.thread] >>= Mesh.shown).map
      List.length = .ok 0 ∧
    (construct (.combination .xor) [builtPart Mesh.thread] >>= Mesh.shown).map
      List.length = .ok 1 := by
  refine ⟨?_, ?_, ?_⟩ <;> decide +kernel

end Mixing

end Kind

end Solids
