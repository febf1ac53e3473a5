import Solids.Proofs.Exact.Spanned
import Solids.Proofs.Mesh.Cutting

/-!
# Convex rings

The ring of a convex polygon as points of a plane any three of which, in their order, turn to the
left around its normal (`Vec3.TurnsLeft`). It does not matter where the ring starts, points may be
left out, and a point between two neighbors may be put in.

A ring that goes from one side of a plane to the other only over points on it spans nothing but what
its points off either side span (`Vec3.TurnsLeft.spanned_or`): the points of one side are cut off
one after the other, each with a triangle that is off the other side. The fan of a ring covers what
the ring spans (`Vec3.TurnsLeft.exists_mem_fan`), likewise by cutting off the triangles of the fan.
-/

namespace Solids

namespace Vec3

variable [Reading] {n b c v w x : Vec3 ℝ} {us vs ws : List (Vec3 ℝ)}

/-- Points of a plane any three of which, in their order, turn to the left around a direction. -/
structure TurnsLeft (n : Vec3 ℝ) (vs : List (Vec3 ℝ)) : Prop where
  level : ∃ r, ∀ v ∈ vs, n.dot v = r
  left : ∀ a b c, [a, b, c].Sublist vs → 0 ≤ wind n a b c

namespace TurnsLeft

/-- Points may be left out. -/
theorem sublist (h : TurnsLeft n vs) (hws : ws.Sublist vs) : TurnsLeft n ws where
  level := h.level.imp fun _ hr v hv => hr v (hws.subset hv)
  left a b c hturn := h.left a b c (hturn.trans hws)

/-- It does not matter where the ring starts. -/
theorem append_comm (h : TurnsLeft n (vs ++ ws)) : TurnsLeft n (ws ++ vs) where
  level := h.level.imp fun _ hr v hv => hr v (List.mem_append.2 (List.mem_append.1 hv).symm)
  left a b c hturn := by
    obtain ⟨first, second, hsplit, hfirst, hsecond⟩ := List.sublist_append_iff.1 hturn
    have hswap := hsecond.append hfirst
    -- However many of the three come before the turn of the lists, they are the last ones now.
    match first, hsplit with
    | [], hsplit =>
      subst hsplit
      exact h.left a b c (by simpa using hswap)
    | [_], hsplit =>
      cases hsplit
      rw [← wind_rotate]
      exact h.left b c a hswap
    | [_, _], hsplit =>
      cases hsplit
      rw [wind_rotate n c a b]
      exact h.left c a b hswap
    | _ :: _ :: _ :: _, hsplit =>
      simp only [List.cons_append, List.cons.injEq, List.nil_eq, List.append_eq_nil_iff] at hsplit
      obtain ⟨rfl, rfl, rfl, rfl, rfl⟩ := hsplit
      exact h.left a b c hswap

/-- The ring may start with any of its points. -/
theorem exists_rotate_eq (h : TurnsLeft n vs) (hb : b ∈ vs) :
    ∃ k rest, vs.rotate k = b :: rest ∧ TurnsLeft n (b :: rest) := by
  obtain ⟨before, after, rfl⟩ := List.append_of_mem hb
  exact ⟨before.length, after ++ before, List.rotate_append_length_eq before (b :: after),
    h.append_comm⟩

/-- Two points of the ring turn left around its first. -/
theorem wind_head (h : TurnsLeft n (v :: vs)) (hbc : [b, c].Sublist (v :: vs)) :
    0 ≤ wind n v b c := by
  cases hbc with
  | cons _ hbc => exact h.left v b c (hbc.cons_cons v)
  | cons_cons _ hbc => exact (wind_self_left n b c).ge

/-- Two points of the ring turn left around its last. -/
theorem wind_getLast (h : TurnsLeft n vs) (hne : vs ≠ []) (hbc : [b, c].Sublist vs) :
    0 ≤ wind n b c (vs.getLast hne) := by
  cases vs using List.reverseRecOn with
  | nil => exact absurd rfl hne
  | append_singleton vs w =>
    rw [List.getLast_append_singleton]
    obtain ⟨first, second, hsplit, hfirst, hsecond⟩ := List.sublist_append_iff.1 hbc
    match second, hsecond with
    | [], _ =>
      rw [List.append_nil] at hsplit
      rw [wind_rotate]
      exact h.append_comm.wind_head ((hsplit ▸ hfirst).cons w)
    | [d], hsecond =>
      obtain rfl := List.mem_singleton.1 (hsecond.subset List.mem_cons_self)
      have hlast := congrArg List.getLast? hsplit
      simp only [List.getLast?_append, List.getLast?_cons_cons, List.getLast?_singleton,
        Option.some_or, Option.some.injEq] at hlast
      rw [hlast]
      exact (wind_self_right n b d).ge
    | _ :: _ :: _, hsecond => exact absurd hsecond.length_le (by simp)

/-- A point between the last and the first of the ring may be put in. -/
theorem cons (h : TurnsLeft n (v :: vs))
    (hc : Spanned [v, (v :: vs).getLast (List.cons_ne_nil v vs)] c) :
    TurnsLeft n (c :: v :: vs) where
  level := by
    obtain ⟨r, hr⟩ := h.level
    refine ⟨r, List.forall_mem_cons.2 ⟨hc _ (convex_level n r) ?_, hr⟩⟩
    simp only [List.forall_mem_cons, List.not_mem_nil, IsEmpty.forall_iff, implies_true, and_true]
    exact ⟨hr v List.mem_cons_self, hr _ (List.getLast_mem _)⟩
  left a b d hturn := by
    cases hturn with
    | cons _ hturn => exact h.left a b d hturn
    | cons_cons _ hturn =>
      rw [← wind_rotate]
      refine hc _ (convex_wind n b d) ?_
      simp only [List.forall_mem_cons, List.not_mem_nil, IsEmpty.forall_iff, implies_true, and_true]
      refine ⟨?_, h.wind_getLast _ hturn⟩
      rw [wind_rotate]
      exact h.wind_head hturn

/-- A point between two neighbors may be put in. -/
theorem insert (h : TurnsLeft n (us ++ v :: w :: vs)) (hc : Spanned [v, w] c) :
    TurnsLeft n (us ++ v :: c :: w :: vs) := by
  have hgap : TurnsLeft n (w :: (vs ++ (us ++ [v]))) := by
    rw [List.append_cons] at h
    exact h.append_comm
  have hput : TurnsLeft n ((c :: w :: vs) ++ (us ++ [v])) := by
    refine hgap.cons (hc.mono ?_)
    simp
  simpa using hput.append_comm

/-- The ring may return to its first point. -/
theorem concat (h : TurnsLeft n (v :: vs)) : TurnsLeft n (v :: (vs ++ [v])) := by
  have hput : TurnsLeft n ([v] ++ v :: vs) :=
    h.cons (spanned_of_mem List.mem_cons_self)
  exact hput.append_comm

/-! ## What a ring spans -/

section Span

variable (hn : n.lengthSq ≠ 0)
include hn

/-- A point that is cut off from the ring takes along the triangle with its neighbors. -/
theorem cut_off (h : TurnsLeft n (b :: v :: vs)) (hx : Spanned (b :: v :: vs) x) :
    Spanned (v :: vs) x ∨ Spanned [(v :: vs).getLast (List.cons_ne_nil v vs), b, v] x := by
  obtain ⟨r, hr⟩ := h.level
  obtain ⟨hb, hvs⟩ := List.forall_mem_cons.1 hr
  refine hx.cut_off hn List.mem_cons_self (List.getLast_mem (List.cons_ne_nil v vs))
    (fun w hw => (hvs w hw).trans hb.symm) (fun w hw => ?_) fun w hw => ?_
  · rcases List.mem_cons.1 hw with rfl | hw
    · exact (wind_self_right n b w).ge
    · exact h.left b v w (((List.singleton_sublist.2 hw).cons_cons v).cons_cons b)
  · rw [← List.getLast_cons (List.cons_ne_nil v vs) (a := b)]
    exact h.wind_getLast _ ((List.singleton_sublist.2 hw).cons_cons b)

/-- A ring that goes from one side to the other only over points on neither spans nothing but what
    its points off either side span. -/
theorem spanned_or {vs fs bs : List (Vec3 ℝ)} {side : Vec3 ℝ → Side} (h : TurnsLeft n vs)
    (hfront : ∀ v ∈ vs, side v ≠ .back → v ∈ fs) (hback : ∀ v ∈ vs, side v ≠ .front → v ∈ bs)
    (hsteps : ∀ s ∈ steps true vs, side s.1 = .on ∨ side s.2 = .on ∨ side s.1 = side s.2)
    (hx : Spanned vs x) : Spanned fs x ∨ Spanned bs x := by
  by_cases hall : ∀ v ∈ vs, side v ≠ .back
  · exact .inl (hx.mono fun v hv => hfront v hv (hall v hv))
  push Not at hall
  obtain ⟨b, hb, hside⟩ := hall
  -- The ring may start with the point that is behind.
  obtain ⟨k, rest, hrotate, hring⟩ := h.exists_rotate_eq hb
  have hmem {v : Vec3 ℝ} : v ∈ b :: rest ↔ v ∈ vs := by
    rw [← hrotate, List.mem_rotate]
  have hsteps : ∀ s ∈ steps true (b :: rest),
      side s.1 = .on ∨ side s.2 = .on ∨ side s.1 = side s.2 := by
    rw [← hrotate, steps_true_rotate]
    exact fun s hs => hsteps s (List.mem_rotate.1 hs)
  have hx : Spanned (b :: rest) x := hx.mono fun v hv => hmem.2 hv
  cases rest with
  | nil =>
    refine .inr (hx.mono fun v hv => hback v (hmem.1 hv) ?_)
    rw [List.mem_singleton.1 hv, hside]
    decide
  | cons f rest =>
    rw [steps_true_eq_concat, List.forall_mem_append, List.forall_mem_singleton,
      List.getLast_cons (List.cons_ne_nil f rest), hside] at hsteps
    obtain ⟨hway, hlast⟩ := hsteps
    obtain ⟨hfirst, hbetween⟩ := List.forall_mem_cons.1 hway
    -- The neighbors of the point are not in front, so that they may become neighbors.
    have hfirst : side f ≠ .front := fun hfront => by simp [hfront, hside] at hfirst
    have hlast : side ((f :: rest).getLast (List.cons_ne_nil f rest)) ≠ .front :=
      fun hfront => by simp [hfront] at hlast
    rcases hring.cut_off hn hx with hx | hx
    · have hshorter : (f :: rest).length < vs.length := by
        rw [← List.length_rotate vs k, hrotate]
        exact Nat.lt_succ_self _
      refine spanned_or (hring.sublist (List.sublist_cons_self b _))
        (fun v hv => hfront v (hmem.1 (List.mem_cons_of_mem b hv)))
        (fun v hv => hback v (hmem.1 (List.mem_cons_of_mem b hv))) ?_ hx
      rw [steps_true_eq_concat, List.forall_mem_append, List.forall_mem_singleton]
      exact ⟨hbetween, Side.on_or_on_or_eq hlast hfirst⟩
    · refine .inr (hx.mono ?_)
      simp only [List.cons_subset, List.nil_subset, and_true]
      refine ⟨hback _ (hmem.1 ?_) hlast, hback b hb ?_, hback _ (hmem.1 ?_) hfirst⟩
      · exact List.mem_cons_of_mem b (List.getLast_mem _)
      · rw [hside]
        decide
      · exact List.mem_cons_of_mem b List.mem_cons_self
termination_by vs.length

/-- The fan of a ring covers what the ring spans. -/
theorem exists_mem_fan {vs : List (Vec3 ℝ)} (h : TurnsLeft n vs) (hlength : 3 ≤ vs.length)
    (hx : Spanned vs x) : ∃ t ∈ fan vs, Spanned t.toList x := by
  match vs, hlength with
  | [a, b, c], _ => exact ⟨⟨a, b, c⟩, List.mem_singleton_self _, hx⟩
  | a :: b :: c :: d :: vs, _ =>
    have hfan : fan (a :: b :: c :: d :: vs) = ⟨a, b, c⟩ :: fan (a :: c :: d :: vs) := rfl
    have hring : TurnsLeft n ([a] ++ b :: c :: d :: vs) := h
    have hrotate : Spanned (b :: c :: d :: (vs ++ [a])) x :=
      hx.mono (List.rotate_perm (a :: b :: c :: d :: vs) 1).symm.subset
    rw [hfan]
    rcases hring.append_comm.cut_off hn hrotate with hx | hx
    · have hx : Spanned (a :: c :: d :: vs) x :=
        hx.mono (List.rotate_perm (a :: c :: d :: vs) 1).subset
      obtain ⟨t, ht, hx⟩ := exists_mem_fan
        (h.sublist ((List.sublist_cons_self b _).cons_cons a)) (by simp) hx
      exact ⟨t, List.mem_cons_of_mem _ ht, hx⟩
    · refine ⟨⟨a, b, c⟩, List.mem_cons_self, hx.mono ?_⟩
      simp [Triangle.toList]
termination_by vs.length

end Span

end TurnsLeft

end Vec3

end Solids
