import Solids.Proofs.Mesh.Closed

/-!
# Patches of closed surfaces

The border of a patch, some of the triangles of a closed surface, has the edges that no other
triangle of the patch has in reverse (`IsBorder`). All others meet in pairs, so what flows around
the patch flows along its border (`IsBorder.sum_eq`), and the border leaves every corner as often as
it arrives there (`IsBorder.map_snd_perm`).

A patch may be replaced by triangles from its border to a new corner: the surface stays closed
(`Closed.replace`), if the border does not touch itself.
-/

namespace Solids

variable {β : Type} {ts patch kept : List (Triangle β)} {es : List (β × β)} {f : β → β → ℤ}

/-- Edges that are there in both directions carry nothing. -/
theorem sum_eq_zero_of_swap_mem (hnodup : es.Nodup) (hswap : ∀ e ∈ es, e.swap ∈ es)
    (hf : Alternating f) : (es.map fun e => f e.1 e.2).sum = 0 := by
  have hperm : (es.map Prod.swap).Perm es := by
    refine (List.perm_ext_iff_of_nodup (hnodup.map Prod.swap_injective) hnodup).2 fun e => ?_
    refine ⟨fun he => ?_, fun he => List.mem_map.2 ⟨e.swap, hswap e he, e.swap_swap⟩⟩
    obtain ⟨e', he', rfl⟩ := List.mem_map.1 he
    exact hswap e' he'
  -- What flows against the edges flows along their reverses, which are the same edges.
  have hback : (es.map fun e => 0 - f e.1 e.2).sum = (es.map fun e => f e.1 e.2).sum := by
    rw [← (hperm.map fun e => f e.1 e.2).sum_eq, List.map_map]
    refine congrArg List.sum (List.map_congr_left fun e _ => ?_)
    rw [zero_sub, ← hf.swap]
    rfl
  rw [sum_map_sub, List.map_const', List.sum_replicate, smul_zero] at hback
  omega

namespace Closed

/-- Nothing flows around a closed surface. -/
theorem around_eq_zero (h : Closed ts) (hf : Alternating f) : around f ts = 0 := by
  refine sum_eq_zero_of_swap_mem h.nodup (fun e he => ?_) hf
  obtain ⟨t, ht, he⟩ := List.mem_flatMap.1 he
  obtain ⟨u, hu, -, hswap⟩ := h.exists_swap_mem t ht e he
  exact List.mem_flatMap.2 ⟨u, hu, hswap⟩

/-- Edges of a closed surface belong to one triangle. -/
theorem eq_of_mem_edges (h : Closed ts) {t u : Triangle β} (ht : t ∈ ts) (hu : u ∈ ts) {e : β × β}
    (het : e ∈ t.edges) (heu : e ∈ u.edges) : t = u := by
  by_contra hne
  have hsymm : Std.Symm (Function.onFun List.Disjoint (Triangle.edges (β := β))) :=
    ⟨fun _ _ hdisjoint => List.Disjoint.symm hdisjoint⟩
  exact (List.nodup_flatMap.1 h.nodup).2.forall ht hu hne het heu

/-- The edges of a closed surface lead from one corner to another. -/
theorem fst_ne_snd (h : Closed ts) {e : β × β} (he : e ∈ ts.flatMap Triangle.edges) :
    e.1 ≠ e.2 := by
  intro heq
  obtain ⟨t, ht, he⟩ := List.mem_flatMap.1 he
  obtain ⟨u, hu, hother, hswap⟩ := h.exists_swap_mem t ht e he
  have hself : e.swap = e := Prod.ext heq.symm heq
  exact hother (h.eq_of_mem_edges hu ht (hself ▸ hswap) he)

/-- The triangles of a closed surface have three different corners. -/
theorem nodup_corners (h : Closed ts) {t : Triangle β} (ht : t ∈ ts) : t.toList.Nodup := by
  have hne {e : β × β} (he : e ∈ t.edges) : e.1 ≠ e.2 :=
    h.fst_ne_snd (List.mem_flatMap.2 ⟨t, ht, he⟩)
  have hab : t.a ≠ t.b := hne List.mem_cons_self
  have hbc : t.b ≠ t.c := hne (List.mem_cons_of_mem _ List.mem_cons_self)
  have hca : t.c ≠ t.a := hne (List.mem_cons_of_mem _ (List.mem_cons_of_mem _ List.mem_cons_self))
  simp [Triangle.toList, hab, hbc, hca.symm]

end Closed

/-- The edges are those that no other triangle has in reverse. -/
structure IsBorder (es : List (β × β)) (ts : List (Triangle β)) : Prop where
  nodup : es.Nodup
  mem_iff : ∀ e, e ∈ es ↔ e ∈ ts.flatMap Triangle.edges ∧ e.swap ∉ ts.flatMap Triangle.edges

namespace IsBorder

variable [DecidableEq β]

/-- What flows around triangles flows along their border. -/
theorem sum_eq (h : IsBorder es ts) (hnodup : (ts.flatMap Triangle.edges).Nodup)
    (hf : Alternating f) : (es.map fun e => f e.1 e.2).sum = around f ts := by
  have hsplit := List.filter_append_perm (fun e => decide (e.swap ∈ ts.flatMap Triangle.edges))
    (ts.flatMap Triangle.edges)
  have hborder : ((ts.flatMap Triangle.edges).filter fun e =>
      !decide (e.swap ∈ ts.flatMap Triangle.edges)).Perm es := by
    refine (List.perm_ext_iff_of_nodup (hnodup.filter _) h.nodup).2 fun e => ?_
    rw [h.mem_iff, List.mem_filter, Bool.not_eq_true', decide_eq_false_iff_not]
  have hinner := sum_eq_zero_of_swap_mem
    (hnodup.filter fun e => decide (e.swap ∈ ts.flatMap Triangle.edges)) (fun e he => ?_) hf
  · rw [around, ← (hsplit.map _).sum_eq, List.map_append, List.sum_append, hinner, zero_add,
      (hborder.map _).sum_eq]
  · rw [List.mem_filter, decide_eq_true_iff] at he ⊢
    exact ⟨he.2, e.swap_swap.symm ▸ he.1⟩

/-- What a flow from one amount to another brings at the ends of a border, it takes away at their
    starts. -/
theorem sum_sub_eq_zero (h : IsBorder es ts) (hnodup : (ts.flatMap Triangle.edges).Nodup)
    (k : β → ℤ) : (es.map fun e => k e.2 - k e.1).sum = 0 := by
  have hf : Alternating fun x y => k y - k x := fun x y => by ring
  refine (h.sum_eq hnodup hf).trans ?_
  clear * -
  induction ts with
  | nil => rfl
  | cons t ts ih =>
    rw [around_cons, ih, around_singleton]
    ring

/-- A border leaves every corner as often as it arrives there. -/
theorem map_snd_perm (h : IsBorder es ts) (hnodup : (ts.flatMap Triangle.edges).Nodup) :
    (es.map Prod.snd).Perm (es.map Prod.fst) := by
  refine List.perm_iff_count.2 fun x => ?_
  have hsum := h.sum_sub_eq_zero hnodup fun y => if y = x then 1 else 0
  have hsnd := sum_map_ite_eq_count (es.map Prod.snd) x
  have hfst := sum_map_ite_eq_count (es.map Prod.fst) x
  rw [List.map_map] at hsnd hfst
  rw [sum_map_sub] at hsum
  simp only [Function.comp_def] at hsnd hfst
  omega

end IsBorder

/-- What flows around triangles over the border of a patch flows around the patch. -/
theorem around_joined [DecidableEq β] (h : IsBorder es patch)
    (hnodup : (patch.flatMap Triangle.edges).Nodup) (hf : Alternating f) (q : β) :
    around f (joined es q) = around f patch := by
  rw [around_joined_eq hf, h.sum_sub_eq_zero hnodup fun x => f x q, add_zero, h.sum_eq hnodup hf]

/-- What meets at a corner has no edge with triangles that are without it. -/
theorem ne_of_mem_edges {q : β} (hq : ∀ t ∈ ts, q ∉ t.toList) {e : β × β}
    (he : e ∈ ts.flatMap Triangle.edges) : e.1 ≠ q ∧ e.2 ≠ q := by
  obtain ⟨t, ht, he⟩ := List.mem_flatMap.1 he
  have hover : t.Over (· ≠ q) := Triangle.over_iff.2 fun x hx heq => hq t ht (heq ▸ hx)
  exact hover.of_mem_edges he

namespace Closed

variable [DecidableEq β] (h : Closed (patch ++ kept)) (hes : IsBorder es patch) {q : β}
  (hq : ∀ t ∈ patch ++ kept, q ∉ t.toList) (hstarts : (es.map Prod.fst).Nodup)
include h hes hq hstarts

/-- No edge occurs twice, when a patch is replaced by triangles over its border. -/
theorem nodup_edges_replace : ((kept ++ joined es q).flatMap Triangle.edges).Nodup := by
  have hnodup := h.nodup
  rw [List.flatMap_append, List.nodup_append] at hnodup
  obtain ⟨hpatch, hkept, hdisjoint⟩ := hnodup
  rw [List.flatMap_append, List.nodup_append]
  refine ⟨hkept, nodup_edges_joined hstarts
    ((hes.map_snd_perm hpatch).nodup_iff.2 hstarts) fun e he => ?_, fun e he e' he' heq => ?_⟩
  · exact ne_of_mem_edges (fun t ht => hq t (List.mem_append_left _ ht)) ((hes.mem_iff e).1 he).1
  · subst heq
    -- What is kept neither has an edge of the patch nor one at the new corner.
    obtain ⟨hstart, hend⟩ := ne_of_mem_edges (fun t ht => hq t (List.mem_append_right _ ht)) he
    obtain ⟨t, ht, he'⟩ := List.mem_flatMap.1 he'
    obtain ⟨s, hs, rfl⟩ := List.mem_map.1 ht
    simp only [Triangle.edges, List.mem_cons, List.not_mem_nil, or_false] at he'
    rcases he' with rfl | rfl | rfl
    · exact hdisjoint _ ((hes.mem_iff _).1 hs).1 _ he rfl
    · exact hend rfl
    · exact hstart rfl

/-- A patch of a closed surface may be replaced by triangles over its border, unless the border
    touches itself. -/
theorem replace : Closed (kept ++ joined es q) := by
  refine closed_of_around (h.nodup_edges_replace hes hq hstarts) (fun t ht => ?_) fun f hf => ?_
  · rcases List.mem_append.1 ht with ht | ht
    · exact h.nodup_corners (List.mem_append_right _ ht)
    · obtain ⟨e, he, rfl⟩ := List.mem_map.1 ht
      have hold : e ∈ (patch ++ kept).flatMap Triangle.edges := by
        rw [List.flatMap_append]
        exact List.mem_append_left _ ((hes.mem_iff e).1 he).1
      obtain ⟨hstart, hend⟩ := ne_of_mem_edges hq hold
      simp [Triangle.toList, h.fst_ne_snd hold, hstart, hend]
  · have hpatch := h.nodup
    rw [List.flatMap_append] at hpatch
    have hnone := h.around_eq_zero hf
    rw [around_append] at hnone
    rw [around_append, around_joined hes hpatch.of_append_left hf, add_comm]
    exact hnone

end Closed

end Solids
