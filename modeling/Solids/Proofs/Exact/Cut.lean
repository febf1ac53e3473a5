import Solids.Proofs.Exact.Convex
import Solids.Proofs.Exact.Division
import Solids.Proofs.Exact.Mesh

/-!
# Convex polygons are cut in parts

A plane sends a polygon in front of it or behind it, or a part each way (`Polygon.cut_cases`). The
parts of a convex polygon (`Polygon.IsConvex`) are convex polygons on the same plane and within it
(`Polygon.PartOf`), and together they cover it (`Polygon.IsConvex.exists_mem_cut`).

The points where the ring of a polygon passes through a plane can be put in between its vertices
(`Polygon.crossed`). The ring then leads from one side to the other only over points on the plane,
and what is left of it off either side are the two parts.
-/

namespace Solids

/-! ## Ways to go -/

section Ways

variable {α : Type} {p : Polygon α}

/-- The polygons that go in front of a plane. -/
def Parts.ahead (parts : Parts α) : List (Polygon α) := parts.front ++ parts.onFront

/-- The polygons that go behind a plane. -/
def Parts.behind (parts : Parts α) : List (Polygon α) := parts.back ++ parts.onBack

/-- Every polygon goes in front of a plane or behind it. -/
theorem Parts.mem_toList {parts : Parts α} :
    p ∈ parts.toList ↔ p ∈ parts.ahead ∨ p ∈ parts.behind := by
  simp only [toList, ahead, behind, List.mem_append]
  tauto

/-- A plane sends a polygon in front of it or behind it, or a part each way. -/
theorem Polygon.cut_cases [Scalar α] (plane : Plane α) (p : Polygon α) :
    ((cut plane p).ahead = [p] ∧ (cut plane p).behind = []) ∨
    ((cut plane p).ahead = [] ∧ (cut plane p).behind = [p]) ∨
    ((cut plane p).ahead = [{ p with vertices := p.half plane .back }] ∧
      (cut plane p).behind = [{ p with vertices := p.half plane .front }]) := by
  cases hfront : p.touches plane .front <;> cases hback : p.touches plane .back
  · rw [cut, hfront, hback]
    dsimp only
    split
    · exact .inl ⟨rfl, rfl⟩
    · exact .inr (.inl ⟨rfl, rfl⟩)
  · rw [cut, hfront, hback]
    exact .inr (.inl ⟨rfl, rfl⟩)
  · rw [cut, hfront, hback]
    exact .inl ⟨rfl, rfl⟩
  · rw [cut_eq_of_touches hfront hback]
    exact .inr (.inr ⟨rfl, rfl⟩)

end Ways

variable [Reading]

/-- A way passes through a plane on it. -/
theorem Plane.side_crossing {plane : Plane ℝ} {v w : Vec3 ℝ}
    (h : plane.distance v * plane.distance w < 0) : plane.side (plane.crossing v w) = .on := by
  have hne : plane.distance w - plane.distance v ≠ 0 := fun heq => by
    rw [sub_eq_zero.1 heq] at h
    exact h.not_ge (mul_self_nonneg _)
  refine side_eq_on ?_
  rw [crossing_eq, distance_lerp]
  field_simp
  ring

namespace Polygon

variable {n c v w x : Vec3 ℝ} {us vs : List (Vec3 ℝ)} {plane : Plane ℝ} {p q r : Polygon ℝ}

/-! ## Crossings put in -/

/-- The way passes through a plane on it. -/
theorem side_of_crossing? (h : crossing? plane v w = some c) : plane.side c = .on := by
  rw [eq_crossing_of_crossing? h]
  exact Plane.side_crossing (distance_mul_neg_of_crossing? h)

/-- A way that does not pass through a plane stays on a side, or one of its ends is on the plane. -/
theorem on_or_on_or_eq_of_crossing? (h : crossing? plane v w = none) :
    plane.side v = .on ∨ plane.side w = .on ∨ plane.side v = plane.side w := by
  rw [crossing?] at h
  cases hv : plane.side v <;> cases hw : plane.side w <;> simp [hv, hw] at h ⊢

/-- The points of a way, and in between those where it passes through a plane. -/
def passed {α : Type} [Scalar α] (plane : Plane α) : List (Vec3 α) → List (Vec3 α)
  | v :: w :: vs => v :: ((crossing? plane v w).toList ++ passed plane (w :: vs))
  | vs => vs

/-- A way begins where it did. -/
theorem exists_passed_eq_cons (plane : Plane ℝ) (v : Vec3 ℝ) (vs : List (Vec3 ℝ)) :
    ∃ ws, passed plane (v :: vs) = v :: ws := by
  cases vs with
  | nil => exact ⟨[], rfl⟩
  | cons w vs => exact ⟨_, rfl⟩

/-- With the points where it passes through a plane, a ring turns left as before. -/
theorem turnsLeft_passed (plane : Plane ℝ) (h : Vec3.TurnsLeft n (us ++ vs)) :
    Vec3.TurnsLeft n (us ++ passed plane vs) := by
  induction vs generalizing us with
  | nil => exact h
  | cons v vs ih =>
    cases vs with
    | nil => exact h
    | cons w vs =>
      have hput : Vec3.TurnsLeft n (us ++ v :: ((crossing? plane v w).toList ++ w :: vs)) := by
        cases hc : crossing? plane v w with
        | none => exact h
        | some c =>
          refine h.insert (crossing?_mem (Vec3.convex_spanned _) ?_ ?_ hc)
          · exact Vec3.spanned_of_mem (by simp)
          · exact Vec3.spanned_of_mem (by simp)
      have hrest : Vec3.TurnsLeft n
          ((us ++ v :: (crossing? plane v w).toList) ++ passed plane (w :: vs)) :=
        ih (by simpa using hput)
      simpa [passed] using hrest

/-- With the points where it passes through a plane, a way leads from one side to the other only
    over points on the plane. -/
theorem on_or_on_or_eq_of_mem_passed {s : Vec3 ℝ × Vec3 ℝ}
    (hs : s ∈ steps false (passed plane vs)) :
    plane.side s.1 = .on ∨ plane.side s.2 = .on ∨ plane.side s.1 = plane.side s.2 := by
  induction vs with
  | nil => cases hs
  | cons v vs ih =>
    cases vs with
    | nil => cases hs
    | cons w vs =>
      obtain ⟨ws, hws⟩ := exists_passed_eq_cons plane w vs
      rw [passed, hws] at hs
      rw [hws] at ih
      cases hc : crossing? plane v w with
      | none =>
        rw [hc] at hs
        rcases List.mem_cons.1 hs with rfl | hs
        · exact on_or_on_or_eq_of_crossing? hc
        · exact ih hs
      | some c =>
        rw [hc] at hs
        rcases List.mem_cons.1 hs with rfl | hs
        · exact .inr (.inl (side_of_crossing? hc))
        rcases List.mem_cons.1 hs with rfl | hs
        · exact .inl (side_of_crossing? hc)
        · exact ih hs

/-- The points of a way on one side of a plane, and those where it passes through it. -/
theorem passed_eq (plane : Plane ℝ) (v : Vec3 ℝ) (vs : List (Vec3 ℝ)) :
    passed plane (v :: vs) = ((steps false (v :: vs)).flatMap fun s =>
      s.1 :: (crossing? plane s.1 s.2).toList) ++ [(v :: vs).getLast (List.cons_ne_nil v vs)] := by
  induction vs generalizing v with
  | nil => rfl
  | cons w vs ih =>
    rw [passed, ih, List.getLast_cons (List.cons_ne_nil w vs)]
    simp [steps]

/-- With the points where it passes through a plane, the ring of a polygon returns to its start. -/
theorem exists_crossed_eq_cons (plane : Plane ℝ) (hp : p.vertices = v :: vs) :
    ∃ ws, p.crossed plane = v :: ws ∧ passed plane (v :: (vs ++ [v])) = v :: (ws ++ [v]) := by
  have hpassed : passed plane (v :: (vs ++ [v])) = p.crossed plane ++ [v] := by
    rw [passed_eq, ← steps_true_cons, ← hp, crossed]
    simp
  rw [hpassed, crossed, hp, steps_true_cons]
  cases vs with
  | nil => exact ⟨_, rfl, rfl⟩
  | cons w vs => exact ⟨_, rfl, rfl⟩

/-- With the points where it passes through a plane, the ring of a polygon leads from one side to
    the other only over points on the plane. -/
theorem on_or_on_or_eq_of_mem_crossed {s : Vec3 ℝ × Vec3 ℝ}
    (hs : s ∈ steps true (p.crossed plane)) :
    plane.side s.1 = .on ∨ plane.side s.2 = .on ∨ plane.side s.1 = plane.side s.2 := by
  cases hvertices : p.vertices with
  | nil =>
    rw [crossed, hvertices] at hs
    cases hs
  | cons v vs =>
    obtain ⟨ws, hws, hpassed⟩ := exists_crossed_eq_cons plane hvertices
    rw [hws, steps_true_cons, ← hpassed] at hs
    exact on_or_on_or_eq_of_mem_passed hs

/-! ## Parts -/

/-- The polygon is convex: its ring turns left around the normal of its plane. -/
structure IsConvex (p : Polygon ℝ) : Prop where
  normal_ne_zero : p.plane.normal.lengthSq ≠ 0
  three_le_length : 3 ≤ p.vertices.length
  turnsLeft : p.plane.normal.TurnsLeft p.vertices

/-- The polygon `r` is a convex part of `p`. -/
structure PartOf (r p : Polygon ℝ) : Prop where
  plane_eq : r.plane = p.plane
  color_eq : r.color = p.color
  isConvex : r.IsConvex
  spanned : ∀ v ∈ r.vertices, Vec3.Spanned p.vertices v

/-- A convex polygon is a part of itself. -/
theorem IsConvex.partOf (hp : p.IsConvex) : p.PartOf p :=
  ⟨rfl, rfl, hp, fun _ hv => Vec3.spanned_of_mem hv⟩

/-- Parts of parts are parts. -/
theorem PartOf.trans (hr : r.PartOf q) (hq : q.PartOf p) : r.PartOf p where
  plane_eq := hr.plane_eq.trans hq.plane_eq
  color_eq := hr.color_eq.trans hq.color_eq
  isConvex := hr.isConvex
  spanned v hv := (hr.spanned v hv).trans hq.spanned

/-- Painting takes the parts of a polygon along. -/
theorem PartOf.paint (h : r.PartOf p) (color : Option Rgba) :
    PartOf { r with color } { p with color } :=
  ⟨h.plane_eq, rfl, ⟨h.isConvex.normal_ne_zero, h.isConvex.three_le_length, h.isConvex.turnsLeft⟩,
    h.spanned⟩

namespace IsConvex

variable (hp : p.IsConvex)
include hp

/-- With the points where it passes through a plane, the ring turns left as before. -/
theorem turnsLeft_crossed (plane : Plane ℝ) : p.plane.normal.TurnsLeft (p.crossed plane) := by
  have hturns := hp.turnsLeft
  cases hvertices : p.vertices with
  | nil =>
    rw [hvertices] at hturns
    rw [crossed, hvertices]
    exact hturns
  | cons v vs =>
    obtain ⟨ws, hws, hpassed⟩ := exists_crossed_eq_cons plane hvertices
    have hring : p.plane.normal.TurnsLeft ([] ++ passed plane (v :: (vs ++ [v]))) :=
      turnsLeft_passed plane (hvertices ▸ hturns).concat
    rw [List.nil_append, hpassed, ← List.cons_append, ← hws] at hring
    exact hring.sublist (List.sublist_append_left _ _)

/-- What a plane makes of a convex polygon are parts of it. -/
theorem partOf_of_mem_cut (hr : r ∈ (cut plane p).ahead ∨ r ∈ (cut plane p).behind) :
    r.PartOf p := by
  rcases of_mem_cut (Parts.mem_toList.2 hr) with rfl | ⟨away, hlength, rfl⟩
  · exact hp.partOf
  · refine ⟨rfl, rfl, ⟨hp.normal_ne_zero, hlength, ?_⟩, fun c hc => ?_⟩
    · exact (hp.turnsLeft_crossed plane).sublist (p.half_sublist_crossed plane away)
    · rcases of_mem_half hc with hc | ⟨v, hv, w, hw, hc⟩
      · exact Vec3.spanned_of_mem hc
      · exact crossing?_mem (Vec3.convex_spanned _) (Vec3.spanned_of_mem hv)
          (Vec3.spanned_of_mem hw) hc

/-- A convex polygon is covered by what is left of it off either side of a plane. -/
theorem spanned_half_or (plane : Plane ℝ) (hx : Vec3.Spanned p.vertices x) :
    Vec3.Spanned (p.half plane .back) x ∨ Vec3.Spanned (p.half plane .front) x :=
  (hp.turnsLeft_crossed plane).spanned_or hp.normal_ne_zero
    (fun _ hv => mem_half_of_mem_crossed hv) (fun _ hv => mem_half_of_mem_crossed hv)
    (fun _ hs => on_or_on_or_eq_of_mem_crossed hs) (hx.mono fun _ hv => mem_crossed plane hv)

/-- What a plane makes of a convex polygon covers it. -/
theorem exists_mem_cut (plane : Plane ℝ) (hx : Vec3.Spanned p.vertices x) :
    ∃ r, (r ∈ (cut plane p).ahead ∨ r ∈ (cut plane p).behind) ∧ Vec3.Spanned r.vertices x := by
  rcases cut_cases plane p with ⟨hahead, -⟩ | ⟨-, hbehind⟩ | ⟨hahead, hbehind⟩
  · exact ⟨p, .inl (hahead ▸ List.mem_singleton_self _), hx⟩
  · exact ⟨p, .inr (hbehind ▸ List.mem_singleton_self _), hx⟩
  · rcases hp.spanned_half_or plane hx with hx | hx
    · exact ⟨_, .inl (hahead ▸ List.mem_singleton_self _), hx⟩
    · exact ⟨_, .inr (hbehind ▸ List.mem_singleton_self _), hx⟩

end IsConvex

end Polygon

end Solids
