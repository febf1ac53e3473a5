import Solids.Planar.Triangulation
import Solids.Proofs.Alike.Vector

/-!
# Alike outlines

Outlines whose corners are alike, one by one, are cut into the same triangles: what decides where
the ears are clipped are turns and areas, which are only compared with something.
-/

namespace Solids.Outline

open Scalar.SignBlind

variable {α : Type} [Scalar α] {o o' : Outline α}

/-! ## Clipping -/

/-- A triangle is left as it is, if it has an area. -/
theorem clip_of_length_le {ring : List o.Corner} (h : ring.length ≤ 3) :
    o.clip ring = (fan ring).filter fun t => tolerance ≤ Scalar.abs (o.points t).turn := by
  rw [clip, if_pos h]

/-- An ear is cut off. -/
theorem clip_of_findEar?_eq_some {ring : List o.Corner} {cut : List (Triangle o.Corner)}
    {j : o.Corner} (h : ¬ring.length ≤ 3) (hfind : o.findEar? ring = some (cut, j)) :
    o.clip ring = cut ++ o.clip (ring.erase j) := by
  rw [clip, if_neg h]
  split
  · next hfind' =>
    cases hfind.symm.trans hfind'
    rfl
  · next hfind' => cases hfind.symm.trans hfind'

/-- Without an ear what is left is covered by a fan. -/
theorem clip_of_findEar?_eq_none {ring : List o.Corner} (h : ¬ring.length ≤ 3)
    (hfind : o.findEar? ring = none) : o.clip ring = fan ring := by
  rw [clip, if_neg h]
  split
  · next hfind' => cases hfind.symm.trans hfind'
  · rfl

/-! ## Outlines that are alike -/

/-- The corners are alike, one by one. -/
def Alike (o o' : Outline α) : Prop := List.Forall₂ Vec2.Alike o.toList o'.toList

/-- The corners have one place. -/
def Same (i : o.Corner) (j : o'.Corner) : Prop := i.val = j.val

omit [Scalar α] in
/-- Corners are the same exactly if those in their places are. -/
theorem eq_iff_of_same {i i' : o.Corner} {j j' : o'.Corner} (h : Same i j) (h' : Same i' j') :
    i = i' ↔ j = j' := by
  rw [Fin.ext_iff, Fin.ext_iff, h, h']

namespace Alike

variable (h : o.Alike o')
include h

/-- Alike outlines have as many corners. -/
theorem size_eq : o.size = o'.size := List.Forall₂.length_eq h

/-- Corners in one place of alike outlines are alike. -/
theorem point {i : o.Corner} {j : o'.Corner} (hij : Same i j) : (o.point i).Alike (o'.point j) := by
  obtain ⟨i, hi⟩ := i
  obtain ⟨j, hj⟩ := j
  obtain rfl : i = j := hij
  exact List.Forall₂.get h hi hj

/-- Triangles over the same places of alike outlines are alike. -/
theorem points {t : Triangle o.Corner} {u : Triangle o'.Corner} (ht : Triangle.Rel Same t u) :
    Triangle.Rel Vec2.Alike (o.points t) (o'.points u) :=
  ht.map fun _ _ hij => h.point hij

variable [Scalar.SignBlind α]

/-- Alike outlines have the same area. -/
theorem signedArea_eq : o.signedArea = o'.signedArea :=
  Scalar.sum_eq (List.rel_map (fun _ _ ⟨hp, hq⟩ => hp.perp hq) (rel_steps true h))

variable {ring : List o.Corner} {ring' : List o'.Corner} (hring : List.Forall₂ Same ring ring')
include hring

/-- The same triangles of alike outlines are ears. -/
theorem isEar_eq {t : Triangle o.Corner} {u : Triangle o'.Corner} (ht : Triangle.Rel Same t u) :
    o.isEar ring t = o'.isEar ring' u := by
  refine all_eq_of_rel (fun i j hij => ?_) hring
  have hcorner : (o.points t).toList.contains (o.point i) =
      (o'.points u).toList.contains (o'.point j) := by
    rw [List.contains_eq_any_beq, List.contains_eq_any_beq]
    exact any_eq_of_rel (fun _ _ hp => (h.point hij).beq_eq hp) (h.points ht).toList
  rw [hcorner, (h.points ht).encloses_eq (h.point hij)]

/-- At the same corners of alike outlines the same is cut off. -/
theorem ear? {t : Triangle o.Corner} {u : Triangle o'.Corner} (ht : Triangle.Rel Same t u) :
    Option.Rel (Both (List.Forall₂ (Triangle.Rel Same)) Same)
      (o.ear? ring t) (o'.ear? ring' u) := by
  have hturn := (h.points ht).turn
  simp only [Outline.ear?, approxZero_eq hturn, lt_iff rfl hturn, h.isEar_eq hring ht]
  split
  · exact .some ⟨.nil, ht.2.1⟩
  split
  · exact .some ⟨.cons ht .nil, ht.2.1⟩
  · exact .none

/-- The first corner that can be cut off is the same for alike outlines. -/
theorem findEar? :
    Option.Rel (Both (List.Forall₂ (Triangle.Rel Same)) Same) (o.findEar? ring)
      (o'.findEar? ring') :=
  rel_findSome? (fun _ _ ht => h.ear? hring ht) (rel_turns hring)

/-- Alike outlines are clipped into the same triangles. -/
theorem clip : List.Forall₂ (Triangle.Rel Same) (o.clip ring) (o'.clip ring') := by
  induction hn : ring.length using Nat.strong_induction_on generalizing ring ring' with
  | _ n ih =>
    subst hn
    by_cases hlen : ring.length ≤ 3
    · rw [clip_of_length_le hlen, clip_of_length_le (hring.length_eq ▸ hlen)]
      refine List.rel_filter (fun t u ht => ?_) (rel_fan hring)
      simp only [abs_eq (h.points ht).turn]
    · have hlen' : ¬ring'.length ≤ 3 := hring.length_eq ▸ hlen
      have hfound := h.findEar? hring
      generalize hfind : o.findEar? ring = found at hfound
      generalize hfind' : o'.findEar? ring' = found' at hfound
      cases hfound with
      | none =>
        rw [clip_of_findEar?_eq_none hlen hfind, clip_of_findEar?_eq_none hlen' hfind']
        exact rel_fan hring
      | @some cut cut' hcut =>
        obtain ⟨hcut, hj⟩ := hcut
        rw [clip_of_findEar?_eq_some hlen hfind, clip_of_findEar?_eq_some hlen' hfind']
        have hmem := mem_of_findEar?_eq_some o hfind
        have hlt := List.length_pos_of_mem hmem
        refine List.rel_append hcut
          (ih _ ?_ (rel_erase (fun _ _ _ _ => eq_iff_of_same) hj hring) rfl)
        rw [List.length_erase_of_mem hmem]
        omega

omit hring in
/-- Alike outlines are cut into the same triangles. -/
theorem triangulate : List.Forall₂ (Triangle.Rel Same) o.triangulate o'.triangulate := by
  have hall {m n : Nat} (hmn : m = n) : List.Forall₂ (fun (i : Fin m) (j : Fin n) => i.val = j.val)
      (List.finRange m) (List.finRange n) := by
    subst hmn
    exact List.forall₂_same.2 fun _ _ => rfl
  simp only [Outline.triangulate, h.size_eq, h.signedArea_eq]
  split
  · exact .nil
  · refine h.clip ?_
    split
    · exact List.rel_reverse (hall h.size_eq)
    · exact hall h.size_eq

end Alike

/-- Alike points make alike outlines seen in one direction. -/
theorem ofPoints_alike [Scalar.SignBlind α] {ps ps' : Array (Vec3 α)}
    (h : List.Forall₂ Vec3.Alike ps.toList ps'.toList) (normal : Vec3 α) :
    (ofPoints ps normal).Alike (ofPoints ps' normal) := by
  rw [Alike, ofPoints, ofPoints, Array.toList_map, Array.toList_map]
  exact List.rel_map (fun _ _ hp => ⟨hp.dot (.refl _), hp.dot (.refl _)⟩) h

end Solids.Outline
