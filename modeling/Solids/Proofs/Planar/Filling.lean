import Solids.Proofs.Mesh.Closed
import Solids.Proofs.Planar.Clipping

/-!
# Outlines are filled

Whatever the coordinates of an outline are, and whether or not it crosses itself, clipping it comes
to an end: every round cuts one corner off the ring, until three are left or no ear is found
(`Outline.Clipping`, `Outline.exists_clipping`). All triangles on the way are over three different
corners (`Outline.Clipping.nodup`).

* `Outline.triangulate_fills`: if no corner is dropped, the outline is the border of its triangles.
  They go along each of its edges once more in the direction in which the outline is walked than
  against it, and along all other edges as often in one direction as in the other.
-/

namespace Solids

/-- The turns around a ring are over three different elements, if it has as many. -/
theorem nodup_of_mem_turns {β : Type} {ring : List β} (hring : ring.Nodup) (h : 3 ≤ ring.length)
    {t : Triangle β} (ht : t ∈ turns ring) : t.toList.Nodup := by
  obtain ⟨before, after, rfl, ha, hc⟩ := exists_append_of_mem_turns ht
  have hothers : (t.b :: (after ++ before)).Nodup :=
    (List.perm_middle.trans (List.perm_append_comm.cons t.b)).nodup_iff.1 hring
  rw [List.length_append, List.length_cons] at h
  have hlength : 2 ≤ (after ++ before).length := by
    rw [List.length_append]
    omega
  -- The others come in order after the element, from the one after it to the one before it.
  generalize after ++ before = rest at *
  match rest, hlength with
  | y :: z :: zs, _ =>
    have hlast : t.a ∈ z :: zs := by
      rw [ha, List.getLast?_cons_cons, List.getLast?_eq_some_getLast (List.cons_ne_nil z zs)]
      exact List.getLast_mem _
    simp only [List.head?_cons, Option.getD_some] at hc
    rw [List.nodup_cons, List.nodup_cons, ← hc] at hothers
    simp only [Triangle.toList, List.nodup_cons, List.mem_cons, List.not_mem_nil, or_false, not_or]
    obtain ⟨hb, hnew, _⟩ := hothers
    exact ⟨⟨fun heq => hb (heq ▸ List.mem_cons_of_mem _ hlast), fun heq => hnew (heq ▸ hlast)⟩,
      fun heq => hb (heq ▸ List.mem_cons_self), not_false, List.nodup_nil⟩

namespace Outline

variable {α : Type} [Scalar α] {o : Outline α} {ring : List o.Corner}
  {ts : List (Triangle o.Corner)}

/-- What a number of rounds make of a ring: each cuts a corner off, with its triangle if it has one,
    until a triangle or less is left, or until there is no ear. -/
inductive Clipping (o : Outline α) : Nat → List o.Corner → List (Triangle o.Corner) → Prop
  | rest {ring : List o.Corner} : ring.length ≤ 3 →
      Clipping o 0 ring ((fan ring).filter fun t => tolerance ≤ Scalar.abs (o.points t).turn)
  | stalled {ring : List o.Corner} : ¬ring.length ≤ 3 → o.findEar? ring = none →
      Clipping o 0 ring (fan ring)
  | round {ring : List o.Corner} {cut ts : List (Triangle o.Corner)} {j : o.Corner} {k : Nat} :
      ¬ring.length ≤ 3 → o.findEar? ring = some (cut, j) →
      Clipping o k (ring.erase j) ts → Clipping o (k + 1) ring (cut ++ ts)

/-- Clipping a ring of `n` corners ends after at most `n - 3` rounds. -/
theorem exists_clipping (ring : List o.Corner) :
    ∃ k ≤ ring.length - 3, o.Clipping k ring (o.clip ring) := by
  induction hn : ring.length using Nat.strong_induction_on generalizing ring with
  | _ n ih =>
    subst hn
    by_cases hlen : ring.length ≤ 3
    · rw [clip_of_length_le hlen]
      exact ⟨0, Nat.zero_le _, .rest hlen⟩
    · cases hfind : o.findEar? ring with
      | none =>
        rw [clip_of_findEar?_eq_none hlen hfind]
        exact ⟨0, Nat.zero_le _, .stalled hlen hfind⟩
      | some r =>
        have herase := List.length_erase_of_mem (mem_of_findEar?_eq_some o hfind)
        obtain ⟨k, hk, hrest⟩ := ih _ (by omega) (ring.erase r.2) rfl
        rw [clip_of_findEar?_eq_some hlen hfind]
        exact ⟨k + 1, by omega, .round hlen hfind hrest⟩

/-- All triangles that are clipped off a ring are over three different corners. -/
theorem Clipping.nodup {k : Nat} (h : o.Clipping k ring ts) (hring : ring.Nodup) :
    ∀ t ∈ ts, t.toList.Nodup := by
  have hfan {ring : List o.Corner} (hring : ring.Nodup) : ∀ t ∈ fan ring, t.toList.Nodup :=
    fun t ht => hring.sublist (sublist_of_mem_fan ht)
  induction h with
  | rest => exact fun t ht => hfan hring t (List.mem_of_mem_filter ht)
  | stalled => exact hfan hring
  | round hlen hfind _ ih =>
    obtain ⟨u, hu, -, hcut⟩ := exists_of_findEar?_eq_some hfind
    intro t ht
    rcases List.mem_append.1 ht with ht | ht
    · rcases hcut with ⟨rfl, -⟩ | rfl
      · cases ht
      · rw [List.mem_singleton.1 ht]
        exact nodup_of_mem_turns hring (by omega) hu
    · exact ih (hring.erase _) t ht

/-- The corners in the order in which the triangles go around them. -/
def walk (o : Outline α) : List o.Corner :=
  if o.signedArea < 0.0 then (List.finRange o.size).reverse else List.finRange o.size

/-- No corner is walked by twice. -/
theorem nodup_walk (o : Outline α) : o.walk.Nodup := by
  rw [walk]
  split
  · exact List.nodup_reverse.2 (List.nodup_finRange _)
  · exact List.nodup_finRange _

/-- All corners are walked by. -/
theorem length_walk (o : Outline α) : o.walk.length = o.size := by
  rw [walk]
  split <;> simp

/-- An outline of three corners or more is clipped as it is walked. -/
theorem triangulate_eq_clip (h : 3 ≤ o.size) : o.triangulate = o.clip o.walk := by
  rw [triangulate, if_neg (Nat.not_lt.2 h)]
  rfl

/-- An outline of `n` corners is cut into at most `n - 2` triangles over three different corners
    each, in at most `n - 3` rounds. If the triangles are as many, the outline is their border, and
    they lie to the left of it as it is walked. -/
theorem triangulate_fills (o : Outline α) (h : 3 ≤ o.size) :
    (∃ k ≤ o.size - 3, o.Clipping k o.walk o.triangulate) ∧
    o.triangulate.length ≤ o.size - 2 ∧
    (∀ t ∈ o.triangulate, t.toList.Nodup) ∧
    (o.triangulate.length = o.size - 2 →
      let edges := o.triangulate.flatMap Triangle.edges
      (∀ e ∈ steps true o.walk, edges.count e = edges.count e.swap + 1) ∧
      ∀ e, e ∉ steps true o.walk → e.swap ∉ steps true o.walk →
        edges.count e = edges.count e.swap) := by
  obtain ⟨k, hk, hclipping⟩ := exists_clipping o.walk
  rw [length_walk] at hk
  rw [← triangulate_eq_clip h] at hclipping
  refine ⟨⟨k, hk, hclipping⟩, length_triangulate_le o, hclipping.nodup o.nodup_walk,
    fun hall => ?_⟩
  have hcount (e : o.Corner × o.Corner) :
      (o.triangulate.flatMap Triangle.edges).count e + (steps true o.walk).count e.swap =
        (o.triangulate.flatMap Triangle.edges).count e.swap + (steps true o.walk).count e := by
    refine count_add_count_of_sum_eq (fun f hf => ?_) e.1 e.2
    rw [triangulate_eq_clip h] at hall ⊢
    exact around_clip hf o.nodup_walk (by rw [length_walk]; omega) (by rw [hall, length_walk])
  refine ⟨fun e he => ?_, fun e he hswap => ?_⟩
  · have hforward := List.count_eq_one_of_mem (nodup_steps o.nodup_walk true) he
    have hbackward := List.count_eq_zero.2
      (swap_not_mem_steps o.nodup_walk (h.trans_eq o.length_walk.symm) he)
    have := hcount e
    omega
  · have hforward := List.count_eq_zero.2 he
    have hbackward := List.count_eq_zero.2 hswap
    have := hcount e
    omega

/-- A star of five points, which crosses itself and runs clockwise. -/
def pentagram : Outline Float :=
  #[⟨0.0, 3.0⟩, ⟨2.0, -3.0⟩, ⟨-3.0, 1.0⟩, ⟨3.0, 1.0⟩, ⟨-2.0, -3.0⟩]

/-- The star is the border of three triangles, the first an ear and the others a fan. -/
theorem triangulate_pentagram : 3 ≤ pentagram.size ∧
    pentagram.triangulate.length = pentagram.size - 2 ∧
    let edges := pentagram.triangulate.flatMap Triangle.edges
    (∀ e ∈ steps true pentagram.walk, edges.count e = edges.count e.swap + 1) ∧
    ∀ e, e ∉ steps true pentagram.walk → e.swap ∉ steps true pentagram.walk →
      edges.count e = edges.count e.swap := by
  have hsize : 3 ≤ pentagram.size := by decide
  have hall : pentagram.triangulate.length = pentagram.size - 2 := by decide +kernel
  obtain ⟨_, _, _, hborder⟩ := triangulate_fills pentagram hsize
  exact ⟨hsize, hall, hborder hall⟩

end Outline

end Solids
