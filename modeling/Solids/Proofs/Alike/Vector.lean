import Solids.Proofs.Alike.Number
import Solids.Proofs.Alike.Walk
import Solids.Triangle

/-!
# Alike vectors

Vectors whose components are alike stay such under the operations on them. Lengths are the same
number, since squares have no sign to forget, and so are sums from the origin on; measures that are
only compared with something are compared alike.
-/

namespace Solids

variable {α : Type} [Scalar α]

/-- The components are alike. -/
def Vec2.Alike (v w : Vec2 α) : Prop := Scalar.Alike v.x w.x ∧ Scalar.Alike v.y w.y

/-- A vector is like itself. -/
theorem Vec3.Alike.refl (v : Vec3 α) : v.Alike v := ⟨rfl, rfl, rfl⟩

section SignBlind

variable [Scalar.SignBlind α]

open Scalar (Absorbs)
open Scalar.SignBlind

/-! ## Sums -/

/-- Alike numbers have the same sum. -/
theorem Scalar.sum_eq {xs ys : List α} (h : List.Forall₂ Alike xs ys) : sum xs = sum ys :=
  foldl_eq_of_rel (fun _ _ _ ha hx => ⟨ha _ _ hx, absorbs_add _ ha⟩) absorbs_zero h

/-- Numbers that are alike are zero within the tolerance or are not. -/
theorem approxZero_eq {x y : α} (h : Scalar.Alike x y) : approxZero x = approxZero y := by
  rw [approxZero, approxZero, abs_eq h]

/-! ## Vectors of the plane -/

namespace Vec2

variable {v v' w w' : Vec2 α}

/-- Alike vectors have alike differences. -/
theorem Alike.sub (hv : v.Alike v') (hw : w.Alike w') : (v - w).Alike (v' - w') :=
  ⟨sub_alike hv.1 hw.1, sub_alike hv.2 hw.2⟩

/-- Alike vectors span alike areas. -/
theorem Alike.perp (hv : v.Alike v') (hw : w.Alike w') :
    Scalar.Alike (v.perp w) (v'.perp w') :=
  sub_alike (mul_alike hv.1 hw.2) (mul_alike hv.2 hw.1)

/-- Alike vectors are equal to alike vectors, or neither is. -/
theorem Alike.beq_eq (hv : v.Alike v') (hw : w.Alike w') : (v == w) = (v' == w') := by
  change (v.x == w.x && v.y == w.y) = (v'.x == w'.x && v'.y == w'.y)
  rw [Scalar.SignBlind.beq_eq hv.1 hw.1, Scalar.SignBlind.beq_eq hv.2 hw.2]

end Vec2

/-! ## Vectors of space -/

namespace Vec3

variable {v v' w w' : Vec3 α}

/-- Alike vectors have alike sums. -/
theorem Alike.add (hv : v.Alike v') (hw : w.Alike w') : (v + w).Alike (v' + w') :=
  ⟨add_alike hv.1 hw.1, add_alike hv.2.1 hw.2.1, add_alike hv.2.2 hw.2.2⟩

/-- Alike vectors have alike differences. -/
theorem Alike.sub (hv : v.Alike v') (hw : w.Alike w') : (v - w).Alike (v' - w') :=
  ⟨sub_alike hv.1 hw.1, sub_alike hv.2.1 hw.2.1, sub_alike hv.2.2 hw.2.2⟩

/-- Alike vectors have alike multiples. -/
theorem Alike.mul {s s' : α} (hv : v.Alike v') (hs : Scalar.Alike s s') :
    (v * s).Alike (v' * s') :=
  ⟨mul_alike hv.1 hs, mul_alike hv.2.1 hs, mul_alike hv.2.2 hs⟩

/-- Alike vectors have alike scalar products. -/
theorem Alike.dot (hv : v.Alike v') (hw : w.Alike w') : Scalar.Alike (v.dot w) (v'.dot w') :=
  add_alike (add_alike (mul_alike hv.1 hw.1) (mul_alike hv.2.1 hw.2.1)) (mul_alike hv.2.2 hw.2.2)

/-- Alike vectors have alike vector products. -/
theorem Alike.cross (hv : v.Alike v') (hw : w.Alike w') : (v.cross w).Alike (v'.cross w') :=
  ⟨sub_alike (mul_alike hv.2.1 hw.2.2) (mul_alike hw.2.1 hv.2.2),
   sub_alike (mul_alike hv.2.2 hw.1) (mul_alike hw.2.2 hv.1),
   sub_alike (mul_alike hv.1 hw.2.1) (mul_alike hw.1 hv.2.1)⟩

/-- Alike ways have alike points along them. -/
theorem Alike.lerp {s s' : α} (hv : v.Alike v') (hw : w.Alike w') (hs : Scalar.Alike s s') :
    (v.lerp w s).Alike (v'.lerp w' s') :=
  hv.add ((hw.sub hv).mul hs)

/-- Vectors that are alike have the same length. -/
theorem Alike.length_eq (h : v.Alike v') : v.length = v'.length := by
  rw [length, length, Vec3.dot, Vec3.dot, mul_self_eq h.1, mul_self_eq h.2.1, mul_self_eq h.2.2]

/-- Points that are alike have the same distances. -/
theorem Alike.distance_eq (hv : v.Alike v') (hw : w.Alike w') : v.distance w = v'.distance w' :=
  (hv.sub hw).length_eq

/-- Vectors of which the first is added up to the same one with whatever is alike. -/
def Absorbs (v : Vec3 α) : Prop := Scalar.Absorbs v.x ∧ Scalar.Absorbs v.y ∧ Scalar.Absorbs v.z

/-- The origin absorbs zeros. -/
theorem absorbs_zero : (zero : Vec3 α).Absorbs :=
  ⟨Scalar.SignBlind.absorbs_zero, Scalar.SignBlind.absorbs_zero, Scalar.SignBlind.absorbs_zero⟩

/-- What absorbs zeros still does so when something was added. -/
theorem Absorbs.add (hv : v.Absorbs) (w : Vec3 α) : (v + w).Absorbs :=
  ⟨absorbs_add w.x hv.1, absorbs_add w.y hv.2.1, absorbs_add w.z hv.2.2⟩

omit [Scalar.SignBlind α] in
/-- What absorbs zeros has the same sum with vectors that are alike. -/
theorem Absorbs.add_eq (hv : v.Absorbs) (h : w.Alike w') : v + w = v + w' := by
  change Vec3.mk (v.x + w.x) (v.y + w.y) (v.z + w.z) =
    Vec3.mk (v.x + w'.x) (v.y + w'.y) (v.z + w'.z)
  rw [hv.1 _ _ h.1, hv.2.1 _ _ h.2.1, hv.2.2 _ _ h.2.2]

/-- Vectors that are alike have the same sum. -/
theorem sum_eq {vs ws : List (Vec3 α)} (h : List.Forall₂ Vec3.Alike vs ws) : sum vs = sum ws :=
  foldl_eq_of_rel (fun _ _ _ hv hw => ⟨hv.add_eq hw, hv.add _⟩) absorbs_zero h

end Vec3

/-- Alike points have alike images under a rotation. -/
theorem Rotation.apply_alike (q : Rotation α) {v v' : Vec3 α} (h : v.Alike v') :
    (q.apply v).Alike (q.apply v') :=
  ((h.mul rfl).add ((Vec3.Alike.refl _).mul (mul_alike (h.dot (.refl _)) rfl))).add
    (((Vec3.Alike.refl _).cross h).mul rfl)

/-! ## Triangles -/

namespace Triangle

/-- Alike triangles both have an area, or neither has. -/
theorem Rel.hasArea_eq {t u : Triangle (Vec3 α)} (h : Rel Vec3.Alike t u) :
    t.hasArea = u.hasArea := by
  rw [hasArea, hasArea, doubleArea, doubleArea,
    ((h.2.1.sub h.1).cross (h.2.2.sub h.1)).length_eq]

/-- Alike triangles have alike volumes below them. -/
theorem Rel.sixfoldVolume {t u : Triangle (Vec3 α)} (h : Rel Vec3.Alike t u) :
    Scalar.Alike t.sixfoldVolume u.sixfoldVolume :=
  h.1.dot (h.2.1.cross h.2.2)

/-- The ways over the corners of alike triangles turn alike. -/
theorem Rel.turn {t u : Triangle (Vec2 α)} (h : Rel Vec2.Alike t u) :
    Scalar.Alike t.turn u.turn :=
  (h.2.1.sub h.1).perp (h.2.2.sub h.2.1)

/-- Alike triangles enclose alike points, or neither does. -/
theorem Rel.encloses_eq {t u : Triangle (Vec2 α)} {p q : Vec2 α} (h : Rel Vec2.Alike t u)
    (hp : p.Alike q) : t.encloses p = u.encloses q := by
  obtain ⟨ha, hb, hc⟩ := h
  have hside {a a' b b' : Vec2 α} (ha : a.Alike a') (hb : b.Alike b') :
      decide ((0.0 : α) ≤ (b - a).perp (p - a)) = decide ((0.0 : α) ≤ (b' - a').perp (q - a')) :=
    decide_eq_decide.2 (le_iff rfl ((hb.sub ha).perp (hp.sub ha)))
  rw [encloses, encloses, hside ha hb, hside hb hc, hside hc ha]

end Triangle

end SignBlind

end Solids
