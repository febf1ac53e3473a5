import Solids.Proofs.Exact.Cut

/-!
# A tree and its complement

What a tree makes of a polygon when it cuts that along all of its planes are the fragments of it
(`Tree.fragments`). Exactly, the fragments of a convex polygon are parts of it, cover it, and have
nothing in common but within the tolerance of a plane (`Tree.divided_fragments`).

Of the fragments of polygons a tree keeps some and its complement keeps the others
(`Tree.clip_append_clip_invert`), since a plane that is turned around sorts polygons the other way
round (`Plane.sort_flip`). For this no fragment may lie on a plane at a right angle to it, within
the tolerance (`Tree.Faced`): such a one counts as facing the other way whichever way the plane is
turned. And there has to be a plane at all, since a leaf is its own complement and keeps everything.
-/

namespace Solids

/-! ## Sorting -/

/-- The side of a plane that is turned around. -/
def Side.flip : Side → Side
  | .on => .on
  | .front => .back
  | .back => .front

/-- Different sides stay different when a plane is turned around. -/
theorem Side.flip_beq (s t : Side) : (s.flip == t.flip) = (s == t) := by
  cases s <;> cases t <;> rfl

/-- Two pairs of lists can be joined crosswise. -/
theorem perm_append_append {β : Type} (as bs cs ds : List β) :
    ((as ++ bs) ++ (cs ++ ds)).Perm ((as ++ cs) ++ (bs ++ ds)) := by
  rw [List.append_assoc, List.append_assoc]
  refine .append_left as ?_
  rw [← List.append_assoc, ← List.append_assoc]
  exact List.perm_append_comm.append_right ds

section Sorting

variable {α : Type}

/-- Polygons sorted the other way round. -/
def Parts.swap (parts : Parts α) : Parts α :=
  ⟨parts.onBack, parts.onFront, parts.back, parts.front⟩

variable [Scalar α] (plane : Plane α) (ps : List (Polygon α))

/-- Of sorted polygons there is of a kind what there is of each, if that holds of sortings that are
    appended. -/
theorem Plane.sort_perm {kind : Parts α → List (Polygon α)} (hnil : kind {} = [])
    (happend : ∀ parts parts', (kind (parts.append parts')).Perm (kind parts ++ kind parts')) :
    (kind (plane.sort ps)).Perm (ps.flatMap fun p => kind (Polygon.cut plane p)) := by
  induction ps with
  | nil => exact .of_eq hnil
  | cons p ps ih =>
    rw [List.flatMap_cons]
    exact (happend _ _).trans (ih.append_left _)

/-- Of sorted polygons goes in front of a plane what goes there of each. -/
theorem Plane.ahead_sort :
    (plane.sort ps).ahead.Perm (ps.flatMap fun p => (Polygon.cut plane p).ahead) :=
  plane.sort_perm ps rfl fun _ _ => perm_append_append _ _ _ _

/-- Of sorted polygons goes behind a plane what goes there of each. -/
theorem Plane.behind_sort :
    (plane.sort ps).behind.Perm (ps.flatMap fun p => (Polygon.cut plane p).behind) :=
  plane.sort_perm ps rfl fun _ _ => perm_append_append _ _ _ _

end Sorting

variable [Reading]

/-! ## Planes turned around -/

namespace Plane

variable (plane : Plane ℝ)

/-- A plane that is turned around faces the other way. -/
theorem dot_flip (n : Vec3 ℝ) : plane.flip.normal.dot n = -plane.normal.dot n := by
  simp only [flip, Vec3.dot_eq, Vec3.neg_eq]
  ring

/-- A point is on the other side of a plane that is turned around. -/
theorem side_flip (v : Vec3 ℝ) : plane.flip.side v = (plane.side v).flip := by
  have htolerance := planeTolerance_pos
  have hback : -plane.distance v < -planeTolerance ↔ planeTolerance < plane.distance v :=
    neg_lt_neg_iff
  have hfront : planeTolerance < -plane.distance v ↔ plane.distance v < -planeTolerance := lt_neg
  simp only [side, distance_flip, hback, hfront]
  by_cases hlow : plane.distance v < -planeTolerance
  · rw [if_pos hlow, if_pos hlow, if_neg (by linarith)]
    rfl
  · rw [if_neg hlow, if_neg hlow]
    split <;> rfl

/-- A plane that is turned around cuts a way at the same point. -/
theorem crossing_flip (v w : Vec3 ℝ) : plane.flip.crossing v w = plane.crossing v w := by
  rw [crossing_eq, crossing_eq, distance_flip, distance_flip, ← neg_div_neg_eq]
  congr 2 <;> ring

end Plane

namespace Polygon

variable {plane : Plane ℝ} {p : Polygon ℝ} {v x : Vec3 ℝ}

/-- A plane that is turned around is passed at the same point. -/
theorem crossing?_flip (plane : Plane ℝ) (v w : Vec3 ℝ) :
    crossing? plane.flip v w = crossing? plane v w := by
  simp only [crossing?, plane.side_flip, plane.crossing_flip]
  cases plane.side v <;> cases plane.side w <;> rfl

/-- A polygon touches the other side of a plane that is turned around. -/
theorem touches_flip (p : Polygon ℝ) (plane : Plane ℝ) (s : Side) :
    p.touches plane.flip s.flip = p.touches plane s := by
  simp only [touches, plane.side_flip, Side.flip_beq]

/-- What is in front of a plane that is turned around was behind it. -/
theorem touches_flip_front (p : Polygon ℝ) (plane : Plane ℝ) :
    p.touches plane.flip .front = p.touches plane .back :=
  p.touches_flip plane .back

/-- What is behind a plane that is turned around was in front of it. -/
theorem touches_flip_back (p : Polygon ℝ) (plane : Plane ℝ) :
    p.touches plane.flip .back = p.touches plane .front :=
  p.touches_flip plane .front

/-- A polygon lies on a plane whichever way that is turned. -/
theorem liesOn_flip (p : Polygon ℝ) (plane : Plane ℝ) : p.liesOn plane.flip = p.liesOn plane := by
  rw [liesOn, liesOn, touches_flip_front, touches_flip_back, Bool.and_comm]

/-- The part of a polygon off a side is off the other side of the plane turned around. -/
theorem half_flip (p : Polygon ℝ) (plane : Plane ℝ) (away : Side) :
    p.half plane.flip away.flip = p.half plane away := by
  simp only [half, plane.side_flip, Side.flip_beq, crossing?_flip]

/-- A plane that is turned around sorts a polygon the other way round, unless that lies on it at a
    right angle. -/
theorem cut_flip (h : p.liesOn plane = true → plane.normal.dot p.plane.normal ≠ 0) :
    cut plane.flip p = (cut plane p).swap := by
  have hhalf : p.half plane.flip .back = p.half plane .front := p.half_flip plane .front
  have hhalf' : p.half plane.flip .front = p.half plane .back := p.half_flip plane .back
  rw [cut, cut, touches_flip_front, touches_flip_back, hhalf, hhalf', plane.dot_flip]
  rw [liesOn] at h
  cases htouches : p.touches plane .front <;> cases htouches' : p.touches plane .back
  · rw [htouches, htouches'] at h
    dsimp only
    rw [Scalar.zero_eq]
    rcases lt_or_gt_of_ne (h rfl) with hneg | hpos
    · rw [if_pos (neg_pos.2 hneg), if_neg hneg.not_gt]
      rfl
    · rw [if_neg (neg_neg_of_pos hpos).not_gt, if_pos hpos]
      rfl
  · rfl
  · rfl
  · rfl

end Polygon

/-- A plane that is turned around sorts polygons the other way round, unless one of them lies on it
    at a right angle. -/
theorem Plane.sort_flip {plane : Plane ℝ} {ps : List (Polygon ℝ)}
    (h : ∀ p ∈ ps, p.liesOn plane = true → plane.normal.dot p.plane.normal ≠ 0) :
    plane.flip.sort ps = (plane.sort ps).swap := by
  induction ps with
  | nil => rfl
  | cons p ps ih =>
    have hcons (plane : Plane ℝ) :
        plane.sort (p :: ps) = (Polygon.cut plane p).append (plane.sort ps) := rfl
    obtain ⟨hp, hps⟩ := List.forall_mem_cons.1 h
    rw [hcons, hcons, Polygon.cut_flip hp, ih hps]
    rfl

/-! ## What parts have in common -/

namespace Plane

variable {plane : Plane ℝ} {v : Vec3 ℝ}

/-- A point that does not count as behind a plane is at most the tolerance behind it. -/
theorem neg_le_distance_of_side (h : plane.side v ≠ .back) :
    -planeTolerance ≤ plane.distance v := by
  by_contra hlt
  exact h (by rw [side, if_pos (not_le.1 hlt)])

/-- The points in front of a plane, from some distance on, are a convex set. -/
theorem convex_distance (plane : Plane ℝ) (r : ℝ) : Vec3.Convex fun x => r ≤ plane.distance x := by
  intro a b s ha hb hs hs'
  rw [distance_lerp]
  have hfirst := mul_le_mul_of_nonneg_left ha (sub_nonneg.2 hs')
  have hsecond := mul_le_mul_of_nonneg_left hb hs
  linarith

end Plane

namespace Polygon

variable {plane : Plane ℝ} {p : Polygon ℝ} {v x : Vec3 ℝ} {away : Side}

/-- What is left of a polygon off a side is not there. -/
theorem side_ne_of_mem_half (haway : away ≠ .on) (hv : v ∈ p.half plane away) :
    plane.side v ≠ away := by
  obtain ⟨s, -, hv⟩ := List.mem_flatMap.1 hv
  rcases List.mem_append.1 hv with hv | hv
  · split at hv
    · cases hv
    · next hside =>
      rw [List.mem_singleton.1 hv]
      exact mt beq_iff_eq.2 hside
  · rw [side_of_crossing? (Option.mem_toList.1 hv)]
    exact haway.symm

/-- What is left of a polygon off the back of a plane is at most the tolerance behind it. -/
theorem neg_le_distance (hx : Vec3.Spanned (p.half plane .back) x) :
    -planeTolerance ≤ plane.distance x :=
  hx _ (plane.convex_distance _) fun _ hv =>
    Plane.neg_le_distance_of_side (side_ne_of_mem_half (by decide) hv)

/-- What the parts of a polygon have in common is within the tolerance of the plane. -/
theorem abs_distance_le (hfront : Vec3.Spanned (p.half plane .back) x)
    (hback : Vec3.Spanned (p.half plane .front) x) : |plane.distance x| ≤ planeTolerance := by
  rw [← half_flip] at hback
  have hlow := neg_le_distance hfront
  have hhigh := neg_le_distance hback
  rw [Plane.distance_flip] at hhigh
  exact abs_le.2 ⟨hlow, neg_le_neg_iff.1 hhigh⟩

end Polygon

/-! ## Fragments -/

namespace Tree

section Fragments

variable {α : Type} [Scalar α]

/-- What a tree makes of a polygon when it cuts that along its planes, and drops nothing. -/
def fragments : Tree α → Polygon α → List (Polygon α)
  | .leaf, p => [p]
  | .node plane _ front back, p =>
    (p.cut plane).ahead.flatMap front.fragments ++ (p.cut plane).behind.flatMap back.fragments

/-- What a tree behind a plane leaves of polygons. If there is none, the space is solid. -/
def clipBehind : Tree α → List (Polygon α) → List (Polygon α)
  | .leaf, _ => []
  | t, ps => t.clip ps

omit [Reading] in
/-- A tree clips what goes in front of its plane and what goes behind. -/
theorem clip_node (plane : Plane α) (own : List (Polygon α)) (front back : Tree α)
    (ps : List (Polygon α)) : (node plane own front back).clip ps =
      front.clip (plane.sort ps).ahead ++ back.clipBehind (plane.sort ps).behind := by
  cases back <;> rfl

end Fragments

/-- No fragment lies on a plane of the tree at a right angle to it. -/
def Faced : Tree ℝ → Polygon ℝ → Prop
  | .leaf, _ => True
  | .node plane _ front back, p =>
    (p.liesOn plane = true → plane.normal.dot p.plane.normal ≠ 0) ∧
    (∀ q ∈ (p.cut plane).ahead, front.Faced q) ∧ ∀ q ∈ (p.cut plane).behind, back.Faced q

/-- The point is within the tolerance of a plane of the tree. -/
def Near : Tree ℝ → Vec3 ℝ → Prop
  | .leaf, _ => False
  | .node plane _ front back, x =>
    |plane.distance x| ≤ planeTolerance ∨ front.Near x ∨ back.Near x

variable {t : Tree ℝ} {ps : List (Polygon ℝ)} {p r : Polygon ℝ} {x : Vec3 ℝ}

/-- Of the fragments a tree in front of a plane keeps some, and its complement behind the plane the
    others; and the other way round. -/
theorem clip_append_clipBehind_invert (h : ∀ p ∈ ps, t.Faced p) :
    (t.clip ps ++ t.invert.clipBehind ps).Perm (ps.flatMap t.fragments) ∧
      (t.clipBehind ps ++ t.invert.clip ps).Perm (ps.flatMap t.fragments) := by
  induction t generalizing ps with
  | leaf =>
    have hself : ps.flatMap (Tree.leaf : Tree ℝ).fragments = ps := List.flatMap_singleton' ps
    rw [hself]
    exact ⟨.of_eq (List.append_nil ps), .refl ps⟩
  | node plane own front back ihfront ihback =>
    have hplane := Plane.sort_flip fun p hp => (h p hp).1
    have hahead : ∀ q ∈ (plane.sort ps).ahead, front.Faced q := by
      intro q hq
      obtain ⟨p, hp, hq⟩ := List.mem_flatMap.1 ((plane.ahead_sort ps).mem_iff.1 hq)
      exact (h p hp).2.1 q hq
    have hbehind : ∀ q ∈ (plane.sort ps).behind, back.Faced q := by
      intro q hq
      obtain ⟨p, hp, hq⟩ := List.mem_flatMap.1 ((plane.behind_sort ps).mem_iff.1 hq)
      exact (h p hp).2.2 q hq
    -- What goes in front of the plane goes behind it when that is turned around.
    have hboth : ((node plane own front back).clip ps ++
        (node plane own front back).invert.clip ps).Perm
          (ps.flatMap (node plane own front back).fragments) := by
      rw [invert, clip_node, clip_node, hplane]
      have hsplit : List.Perm
          ((front.clip (plane.sort ps).ahead ++ back.clipBehind (plane.sort ps).behind) ++
            (back.invert.clip (plane.sort ps).behind ++
              front.invert.clipBehind (plane.sort ps).ahead))
          ((plane.sort ps).ahead.flatMap front.fragments ++
            (plane.sort ps).behind.flatMap back.fragments) := by
        refine (List.perm_append_comm.append_left _).trans ?_
        refine (perm_append_append _ _ _ _).trans ?_
        exact (ihfront hahead).1.append (ihback hbehind).2
      refine hsplit.trans ((((plane.ahead_sort ps).flatMap_right _).append
        ((plane.behind_sort ps).flatMap_right _)).trans ?_)
      rw [List.flatMap_assoc, List.flatMap_assoc]
      exact List.flatMap_append_perm ps _ _
    exact ⟨hboth, hboth⟩

/-- Of the fragments a tree keeps some and its complement the others. -/
theorem clip_append_clip_invert (ht : t ≠ .leaf) (h : ∀ p ∈ ps, t.Faced p) :
    (t.clip ps ++ t.invert.clip ps).Perm (ps.flatMap t.fragments) := by
  cases t with
  | leaf => exact absurd rfl ht
  | node plane own front back => exact (clip_append_clipBehind_invert h).1

/-- What a tree keeps, or its complement, are the fragments. -/
theorem mem_clip_or_iff (h : ∀ p ∈ ps, t.Faced p) :
    r ∈ t.clip ps ∨ r ∈ t.invert.clip ps ↔ ∃ p ∈ ps, r ∈ t.fragments p := by
  rw [← List.mem_flatMap, ← List.mem_append]
  cases t with
  | leaf =>
    have hself : ps.flatMap (Tree.leaf : Tree ℝ).fragments = ps := List.flatMap_singleton' ps
    rw [hself]
    exact List.mem_append.trans (or_self_iff)
  | node plane own front back => exact (clip_append_clipBehind_invert h).1.mem_iff

/-- The fragments of a convex polygon are parts of it. -/
theorem partOf_of_mem_fragments (hp : p.IsConvex) (hr : r ∈ t.fragments p) : r.PartOf p := by
  induction t generalizing p with
  | leaf =>
    rw [List.mem_singleton.1 hr]
    exact hp.partOf
  | node plane own front back ihfront ihback =>
    rcases List.mem_append.1 hr with hr | hr
    · obtain ⟨q, hq, hr⟩ := List.mem_flatMap.1 hr
      have hq := hp.partOf_of_mem_cut (.inl hq)
      exact (ihfront hq.isConvex hr).trans hq
    · obtain ⟨q, hq, hr⟩ := List.mem_flatMap.1 hr
      have hq := hp.partOf_of_mem_cut (.inr hq)
      exact (ihback hq.isConvex hr).trans hq

/-- The fragments of a convex polygon cover it. -/
theorem exists_mem_fragments (t : Tree ℝ) (hp : p.IsConvex) (hx : Vec3.Spanned p.vertices x) :
    ∃ r ∈ t.fragments p, Vec3.Spanned r.vertices x := by
  induction t generalizing p with
  | leaf => exact ⟨p, List.mem_singleton_self p, hx⟩
  | node plane own front back ihfront ihback =>
    obtain ⟨q, hq | hq, hx⟩ := hp.exists_mem_cut plane hx
    · have hconvex := (hp.partOf_of_mem_cut (.inl hq)).isConvex
      obtain ⟨r, hr, hx⟩ := ihfront hconvex hx
      exact ⟨r, List.mem_append_left _ (List.mem_flatMap.2 ⟨q, hq, hr⟩), hx⟩
    · have hconvex := (hp.partOf_of_mem_cut (.inr hq)).isConvex
      obtain ⟨r, hr, hx⟩ := ihback hconvex hx
      exact ⟨r, List.mem_append_right _ (List.mem_flatMap.2 ⟨q, hq, hr⟩), hx⟩

/-- What two fragments of a convex polygon have in common is within the tolerance of a plane. -/
theorem pairwise_fragments (t : Tree ℝ) (hp : p.IsConvex) :
    (t.fragments p).Pairwise fun r s =>
      ∀ x, Vec3.Spanned r.vertices x → Vec3.Spanned s.vertices x → t.Near x := by
  induction t generalizing p with
  | leaf => exact List.pairwise_singleton _ p
  | node plane own front back ihfront ihback =>
    rw [fragments]
    rcases Polygon.cut_cases plane p with ⟨hahead, hbehind⟩ | ⟨hahead, hbehind⟩ | ⟨hahead, hbehind⟩
    · rw [hahead, hbehind, List.flatMap_singleton, List.flatMap_nil, List.append_nil]
      exact (ihfront hp).imp fun h x hx hx' => .inr (.inl (h x hx hx'))
    · rw [hahead, hbehind, List.flatMap_singleton, List.flatMap_nil, List.nil_append]
      exact (ihback hp).imp fun h x hx hx' => .inr (.inr (h x hx hx'))
    · have hfront := hp.partOf_of_mem_cut (.inl (hahead ▸ List.mem_singleton_self _))
      have hback := hp.partOf_of_mem_cut (.inr (hbehind ▸ List.mem_singleton_self _))
      rw [hahead, hbehind, List.flatMap_singleton, List.flatMap_singleton]
      refine List.pairwise_append.2 ⟨?_, ?_, fun r hr s hs x hx hx' => .inl ?_⟩
      · exact (ihfront hfront.isConvex).imp fun h x hx hx' => .inr (.inl (h x hx hx'))
      · exact (ihback hback.isConvex).imp fun h x hx hx' => .inr (.inr (h x hx hx'))
      · -- A fragment of either part stays in it.
        have hx := hx.trans (partOf_of_mem_fragments hfront.isConvex hr).spanned
        have hx' := hx'.trans (partOf_of_mem_fragments hback.isConvex hs).spanned
        exact Polygon.abs_distance_le hx hx'

/-- The polygons `rs` are parts of `p` and cover it, and what two of them have in common is within
    the tolerance of a plane of the tree. -/
structure Divided (t : Tree ℝ) (p : Polygon ℝ) (rs : List (Polygon ℝ)) : Prop where
  partOf : ∀ r ∈ rs, r.PartOf p
  covers : ∀ x, Vec3.Spanned p.vertices x → ∃ r ∈ rs, Vec3.Spanned r.vertices x
  near : rs.Pairwise fun r s =>
    ∀ x, Vec3.Spanned r.vertices x → Vec3.Spanned s.vertices x → t.Near x

/-- A convex polygon is divided into its fragments. -/
theorem divided_fragments (t : Tree ℝ) (hp : p.IsConvex) : t.Divided p (t.fragments p) :=
  ⟨fun _ => partOf_of_mem_fragments hp, fun _ => t.exists_mem_fragments hp, t.pairwise_fragments hp⟩

end Tree

end Solids
