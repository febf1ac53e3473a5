import Solids.Proofs.Exact.Point

/-!
# Points that others span

The points that some points span are those of every convex set that holds these (`Vec3.Spanned`).
Which way three points of a plane turn around its normal is a number (`Vec3.wind`), positive where
they go around counter-clockwise.

If all other points are between the two ways from one point to its neighbors, cutting that point off
loses nothing but the triangle that it spans with its neighbors (`Vec3.Spanned.cut_off`). The way
from the point to another one meets that between the neighbors (`Vec3.lerp_eq_add_mul`), unless all
of them are on one line (`Vec3.Convex.or_spanned_of_eq_mul`).
-/

namespace Solids.Vec3

variable [Reading] {P : Vec3 ℝ → Prop} {vs ws : List (Vec3 ℝ)} {n a b c d f l v w x y : Vec3 ℝ}

/-! ## Convex sets and what is spanned -/

/-- The point is in every convex set that holds the given points. -/
def Spanned (vs : List (Vec3 ℝ)) (x : Vec3 ℝ) : Prop := ∀ P, Convex P → (∀ v ∈ vs, P v) → P x

/-- Points span themselves. -/
theorem spanned_of_mem (h : v ∈ vs) : Spanned vs v := fun _ _ hvs => hvs v h

/-- What points span is convex. -/
theorem convex_spanned (vs : List (Vec3 ℝ)) : Convex (Spanned vs) :=
  fun a b s ha hb hs hs' P hP hvs => hP a b s (ha P hP hvs) (hb P hP hvs) hs hs'

/-- What is spanned by points that others span is spanned by these. -/
theorem Spanned.trans (h : Spanned vs x) (hvs : ∀ v ∈ vs, Spanned ws v) : Spanned ws x :=
  fun P hP hws => h P hP fun v hv => hvs v hv P hP hws

/-- What is spanned by some points is spanned by more. -/
theorem Spanned.mono (h : Spanned vs x) (hvs : vs ⊆ ws) : Spanned ws x :=
  h.trans fun _ hv => spanned_of_mem (hvs hv)

/-- A convex set holds what lies between two of its points on a line. -/
theorem Convex.between (hP : Convex P) {r s t : ℝ} (hr : P (b + d * r)) (ht : P (b + d * t))
    (hrs : r ≤ s) (hst : s ≤ t) : P (b + d * s) := by
  obtain ⟨share, hshare, hshare', rfl⟩ := exists_share hrs hst
  have hbetween : b + d * (r + (t - r) * share) = (b + d * r).lerp (b + d * t) share := by
    simp only [lerp_eq, add_eq, mul_eq, Vec3.mk.injEq]
    refine ⟨?_, ?_, ?_⟩ <;> ring
  rw [hbetween]
  exact hP _ _ _ hr ht hshare hshare'

/-- The start of a line. -/
theorem add_mul_zero (b d : Vec3 ℝ) : b + d * (0 : ℝ) = b := by
  simp only [add_eq, mul_eq, mul_zero, add_zero]

/-- The end of the way from one point to another. -/
theorem add_sub_mul_one (b y : Vec3 ℝ) : b + (y - b) * (1 : ℝ) = y := by
  simp only [add_eq, sub_eq, mul_eq, mul_one, add_sub_cancel]

/-- What a point and others span is between that point and what the others span. -/
theorem Spanned.exists_lerp (h : Spanned (b :: vs) x) (hne : vs ≠ []) :
    ∃ y, ∃ s : ℝ, Spanned vs y ∧ 0 ≤ s ∧ s ≤ 1 ∧ b + (y - b) * s = x := by
  refine h (fun x => ∃ y, ∃ s : ℝ, Spanned vs y ∧ 0 ≤ s ∧ s ≤ 1 ∧ b + (y - b) * s = x) ?_
    (List.forall_mem_cons.2 ⟨?_, fun v hv => ?_⟩)
  · rintro _ _ t ⟨y, s, hy, hs, hs', rfl⟩ ⟨y', s', hy', ht, ht', rfl⟩ h0 h1
    -- The shares add up, and the point to go to is reached in proportion to them.
    have hfirst : 0 ≤ (1 - t) * s := mul_nonneg (sub_nonneg.2 h1) hs
    have hsecond : 0 ≤ t * s' := mul_nonneg h0 ht
    have hsum : (1 - t) * s + t * s' ≤ 1 := by nlinarith
    rcases (add_nonneg hfirst hsecond).eq_or_lt with hzero | hpos
    · have hfirst : (1 - t) * s = 0 := by linarith
      have hsecond : t * s' = 0 := by linarith
      refine ⟨y, 0, hy, le_rfl, zero_le_one, ?_⟩
      simp only [lerp_eq, add_eq, sub_eq, mul_eq, Vec3.mk.injEq]
      refine ⟨?_, ?_, ?_⟩
      · linear_combination (b.x - y.x) * hfirst + (b.x - y'.x) * hsecond
      · linear_combination (b.y - y.y) * hfirst + (b.y - y'.y) * hsecond
      · linear_combination (b.z - y.z) * hfirst + (b.z - y'.z) * hsecond
    · refine ⟨y.lerp y' (t * s' / ((1 - t) * s + t * s')), (1 - t) * s + t * s', ?_, hpos.le,
        hsum, ?_⟩
      · refine convex_spanned vs _ _ _ hy hy' (div_nonneg hsecond hpos.le) ?_
        exact (div_le_one hpos).2 (by linarith)
      · simp only [lerp_eq, add_eq, sub_eq, mul_eq, Vec3.mk.injEq]
        refine ⟨?_, ?_, ?_⟩ <;> field_simp <;> ring
  · obtain ⟨v, hv⟩ := List.exists_mem_of_ne_nil vs hne
    exact ⟨v, 0, spanned_of_mem hv, le_rfl, zero_le_one, add_mul_zero _ _⟩
  · exact ⟨v, 1, spanned_of_mem hv, zero_le_one, le_rfl, add_sub_mul_one _ _⟩

/-! ## Turning -/

/-- How far three points turn around a direction to the left. -/
noncomputable def wind (n a b c : Vec3 ℝ) : ℝ := volume n (b - a) (c - a)

/-- The turn of three points in components. -/
theorem wind_eq (n a b c : Vec3 ℝ) : wind n a b c =
    n.x * ((b.y - a.y) * (c.z - a.z) - (c.y - a.y) * (b.z - a.z)) +
    n.y * ((b.z - a.z) * (c.x - a.x) - (c.z - a.z) * (b.x - a.x)) +
    n.z * ((b.x - a.x) * (c.y - a.y) - (c.x - a.x) * (b.y - a.y)) := rfl

/-- It does not matter with which of three points a turn starts. -/
theorem wind_rotate (n a b c : Vec3 ℝ) : wind n b c a = wind n a b c := by
  simp only [wind_eq]
  ring

/-- A way there and back turns nowhere. -/
theorem wind_self_left (n a b : Vec3 ℝ) : wind n a a b = 0 := by
  simp only [wind_eq]
  ring

/-- A way that stays at its end turns nowhere. -/
theorem wind_self_right (n a b : Vec3 ℝ) : wind n a b b = 0 := by
  simp only [wind_eq]
  ring

/-- To a point between two others it turns by shares. -/
theorem wind_lerp (n a b c d : Vec3 ℝ) (s : ℝ) :
    wind n a b (c.lerp d s) = (1 - s) * wind n a b c + s * wind n a b d := by
  simp only [wind_eq, lerp_eq]
  ring

/-- Points to which it turns left are a convex set. -/
theorem convex_wind (n a b : Vec3 ℝ) : Convex fun x => 0 ≤ wind n a b x := by
  intro c d s hc hd hs hs'
  rw [wind_lerp]
  exact add_nonneg (mul_nonneg (sub_nonneg.2 hs') hc) (mul_nonneg hs hd)

/-- Points of a plane are a convex set. -/
theorem convex_level (n : Vec3 ℝ) (r : ℝ) : Convex fun x => n.dot x = r := by
  intro c d s hc hd _ _
  simp only [dot_eq, lerp_eq] at hc hd ⊢
  linear_combination (1 - s) * hc + s * hd

/-! ## Directions of a plane -/

/-- The way between points of a plane has no part along its normal. -/
theorem dot_sub_eq_zero (h : n.dot a = n.dot b) : n.dot (a - b) = 0 := by
  rw [dot_sub, h, sub_self]

section Level

variable {e g h : Vec3 ℝ} (hn : n.lengthSq ≠ 0) (he : n.dot e = 0) (hh : n.dot h = 0)
include hn he hh

/-- In a plane, a direction that does not turn from another is a multiple of it. -/
theorem exists_eq_mul (hne : e.lengthSq ≠ 0) (hturn : volume n e h = 0) :
    ∃ t : ℝ, h = e * t := by
  -- The product of the two has no part along the normal, and no other part.
  have hcross (r : ℝ) (hr : n.lengthSq * r = 0) : r = 0 := (mul_eq_zero.1 hr).resolve_left hn
  simp only [volume, lengthSq_eq, dot_eq, cross] at he hh hturn hcross hne ⊢
  have hx := hcross (e.y * h.z - h.y * e.z) (by
    linear_combination n.x * hturn - n.y * (e.z * hh - h.z * he) + n.z * (e.y * hh - h.y * he))
  have hy := hcross (e.z * h.x - h.z * e.x) (by
    linear_combination n.y * hturn - n.z * (e.x * hh - h.x * he) + n.x * (e.z * hh - h.z * he))
  have hz := hcross (e.x * h.y - h.x * e.y) (by
    linear_combination n.z * hturn - n.x * (e.y * hh - h.y * he) + n.y * (e.x * hh - h.x * he))
  obtain ⟨t, ht⟩ : ∃ t, t * (e.x * e.x + e.y * e.y + e.z * e.z) =
      e.x * h.x + e.y * h.y + e.z * h.z := ⟨_, div_mul_cancel₀ _ hne⟩
  refine ⟨t, ?_⟩
  obtain ⟨x, y, z⟩ := h
  simp only [mul_eq, Vec3.mk.injEq] at hx hy hz ht ⊢
  refine ⟨mul_left_cancel₀ hne ?_, mul_left_cancel₀ hne ?_, mul_left_cancel₀ hne ?_⟩
  · linear_combination e.z * hy - e.y * hz - e.x * ht
  · linear_combination e.x * hz - e.z * hx - e.y * ht
  · linear_combination e.y * hx - e.x * hy - e.z * ht

variable (hg : n.dot g = 0)
include hg

/-- In a plane, a direction is made of two others in shares that are turns between them. -/
theorem mul_turn : h * volume n e g = e * volume n h g + g * volume n e h := by
  simp only [volume, lengthSq_eq, dot_eq, cross, mul_eq, add_eq, Vec3.mk.injEq] at *
  have hdet : e.x * (g.y * h.z - h.y * g.z) + e.y * (g.z * h.x - h.z * g.x) +
      e.z * (g.x * h.y - h.x * g.y) = 0 := by
    refine (mul_eq_zero.1 ?_).resolve_left hn
    linear_combination
      (n.x * (e.y * g.z - g.y * e.z) + n.y * (e.z * g.x - g.z * e.x) +
        n.z * (e.x * g.y - g.x * e.y)) * hh +
      (n.x * (g.y * h.z - h.y * g.z) + n.y * (g.z * h.x - h.z * g.x) +
        n.z * (g.x * h.y - h.x * g.y)) * he +
      (n.x * (h.y * e.z - e.y * h.z) + n.y * (h.z * e.x - e.z * h.x) +
        n.z * (h.x * e.y - e.x * h.y)) * hg
  refine ⟨?_, ?_, ?_⟩
  · linear_combination n.x * hdet
  · linear_combination n.y * hdet
  · linear_combination n.z * hdet

end Level

/-! ## Cutting off a point -/

section Way

variable {r s t : ℝ} (hP : Convex P) (hf : P f) (hy : P y) (hs : 0 ≤ s) (hs' : s ≤ 1)
include hP hf hy hs hs'

/-- Between a point and another one on a line with a neighbor, the way to the neighbor ends where a
    convex set that holds both of these has begun. -/
theorem Convex.or_spanned_of_eq_mul (ht : y - b = (f - b) * t) :
    P (b + (y - b) * s) ∨ Spanned [b, f] (b + (y - b) * s) := by
  have hmul (r : ℝ) : b + (y - b) * r = b + (f - b) * (t * r) := by
    rw [ht]
    simp only [add_eq, mul_eq, mul_assoc]
  have hneighbor : P (b + (f - b) * (1 : ℝ)) := by rwa [add_sub_mul_one]
  have hother : P (b + (f - b) * (t * 1)) := by rwa [← hmul, add_sub_mul_one]
  rw [hmul]
  rcases lt_or_ge (t * s) 0 with hbehind | hahead
  · -- The neighbor is on the other side of the point.
    have ht0 : t ≤ 0 := by nlinarith
    exact .inl (hP.between hother hneighbor (mul_le_mul_of_nonpos_left hs' ht0)
      (hbehind.le.trans zero_le_one))
  · rcases le_total (t * s) 1 with hwithin | hbeyond
    · have hstart : Spanned [b, f] (b + (f - b) * (0 : ℝ)) := by
        rw [add_mul_zero]
        exact spanned_of_mem (by simp)
      refine .inr ((convex_spanned _).between hstart ?_ hahead hwithin)
      rw [add_sub_mul_one]
      exact spanned_of_mem (by simp)
    · have ht0 : 0 ≤ t := by nlinarith
      exact .inl (hP.between hneighbor hother hbeyond (mul_le_mul_of_nonneg_left hs' ht0))

/-- Between a point and another one, if the line through them meets that between the neighbors, the
    triangle with these ends where a convex set that holds them and the other point has begun. -/
theorem Convex.or_spanned_of_lerp_eq (hl : P l) (ht : 0 ≤ t) (ht' : t ≤ 1)
    (hmeet : f.lerp l t = b + (y - b) * r) :
    P (b + (y - b) * s) ∨ Spanned [l, b, f] (b + (y - b) * s) := by
  rcases le_total s r with hwithin | hbeyond
  · have hstart : Spanned [l, b, f] (b + (y - b) * (0 : ℝ)) := by
      rw [add_mul_zero]
      exact spanned_of_mem (by simp)
    refine .inr ((convex_spanned _).between hstart ?_ hs hwithin)
    rw [← hmeet]
    exact convex_spanned _ _ _ _ (spanned_of_mem (by simp)) (spanned_of_mem (by simp)) ht ht'
  · have hother : P (b + (y - b) * (1 : ℝ)) := by rwa [add_sub_mul_one]
    refine .inl (hP.between ?_ hother hbeyond hs')
    rw [← hmeet]
    exact hP _ _ _ hf hl ht ht'

end Way

section CutOff

variable (hn : n.lengthSq ≠ 0)
include hn

section Neighbors

variable (hlevelf : n.dot f = n.dot b) (hlevell : n.dot l = n.dot b) (hlevely : n.dot y = n.dot b)
include hlevelf hlevell hlevely

/-- In a plane, the line from a point through another one meets that between its neighbors in shares
    that are turns around the point. -/
theorem lerp_eq_add_mul {w : ℝ} (hw : wind n b y l + wind n b f y = w) (hne : w ≠ 0) :
    f.lerp l (wind n b f y / w) = b + (y - b) * (wind n b f l / w) := by
  have hmul := mul_turn hn (dot_sub_eq_zero hlevelf) (dot_sub_eq_zero hlevely)
    (dot_sub_eq_zero hlevell)
  change (y - b) * wind n b f l = (f - b) * wind n b y l + (l - b) * wind n b f y at hmul
  simp only [lerp_eq, add_eq, sub_eq, mul_eq, Vec3.mk.injEq] at hmul ⊢
  obtain ⟨hx, hy, hz⟩ := hmul
  refine ⟨?_, ?_, ?_⟩
  · field_simp
    linear_combination (b.x - f.x) * hw - hx
  · field_simp
    linear_combination (b.y - f.y) * hw - hy
  · field_simp
    linear_combination (b.z - f.z) * hw - hz

/-- Between a point and another one that is between the ways from it to its neighbors, the triangle
    with the neighbors ends where a convex set that holds them and the other point has begun. -/
theorem Convex.or_spanned (hP : Convex P) (hf : P f) (hl : P l) (hy : P y)
    (hfy : 0 ≤ wind n b f y) (hyl : 0 ≤ wind n b y l) {s : ℝ} (hs : 0 ≤ s) (hs' : s ≤ 1) :
    P (b + (y - b) * s) ∨ Spanned [l, b, f] (b + (y - b) * s) := by
  rcases (add_nonneg hyl hfy).eq_or_lt with hzero | hpos
  · by_cases hne : (f - b).lengthSq = 0
    · rw [eq_of_lengthSq_sub_eq_zero hne] at hf
      have hstart : P (b + (y - b) * (0 : ℝ)) := by rwa [add_mul_zero]
      have hend : P (b + (y - b) * (1 : ℝ)) := by rwa [add_sub_mul_one]
      exact .inl (hP.between hstart hend hs hs')
    · -- The way to the other point does not turn from that to the neighbor.
      have hturn : volume n (f - b) (y - b) = 0 := by
        change wind n b f y = 0
        linarith
      obtain ⟨t, ht⟩ := exists_eq_mul hn (dot_sub_eq_zero hlevelf) (dot_sub_eq_zero hlevely) hne
        hturn
      exact (hP.or_spanned_of_eq_mul hf hy hs hs' ht).imp_right fun h => h.mono (by simp)
  · refine hP.or_spanned_of_lerp_eq hf hy hs hs' hl (div_nonneg hfy hpos.le) ?_
      (lerp_eq_add_mul hn hlevelf hlevell hlevely rfl hpos.ne')
    exact (div_le_one hpos).2 (le_add_of_nonneg_left hyl)

end Neighbors

/-- A point that is cut off from others takes along the triangle with its neighbors, if all others
    are between the ways to these. -/
theorem Spanned.cut_off (hf : f ∈ vs) (hl : l ∈ vs) (hlevel : ∀ v ∈ vs, n.dot v = n.dot b)
    (hleft : ∀ v ∈ vs, 0 ≤ wind n b f v) (hright : ∀ v ∈ vs, 0 ≤ wind n b v l)
    (h : Spanned (b :: vs) x) : Spanned vs x ∨ Spanned [l, b, f] x := by
  obtain ⟨y, s, hy, hs, hs', rfl⟩ := h.exists_lerp (List.ne_nil_of_mem hf)
  have hyl : 0 ≤ wind n b y l := by
    rw [wind_rotate]
    refine hy _ (convex_wind n l b) fun v hv => ?_
    rw [← wind_rotate]
    exact hright v hv
  exact (convex_spanned vs).or_spanned hn (hlevel f hf) (hlevel l hl)
    (hy _ (convex_level n _) hlevel) (spanned_of_mem hf) (spanned_of_mem hl) hy
    (hy _ (convex_wind n b f) hleft) hyl hs hs'

end CutOff

end Solids.Vec3
