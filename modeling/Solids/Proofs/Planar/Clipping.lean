import Solids.Proofs.Alike.Outline
import Solids.Proofs.Mesh.Circulation

/-!
# What a triangulation goes around

An outline of `n` corners is cut into at most `n - 2` triangles (`Outline.length_triangulate_le`),
and into as many if no corner is dropped for lack of a turn. Then every corner that is cut off takes
along the triangle that it spans with its neighbors, so that the triangles carry whatever flows
around the outline, or against its order if that is clockwise (`Outline.around_triangulate`). It
does not matter how the corners were chosen and whether the outline crosses itself.
-/

namespace Solids

namespace Outline

variable {α G : Type} [Scalar α] [AddCommGroup G] {o : Outline α} {f : o.Corner → o.Corner → G}

omit [AddCommGroup G] in
/-- What is found to be cut off a ring is the middle of a turn, with that turn, or with no triangle
    if it hardly turns at all. -/
theorem exists_of_findEar?_eq_some {ring : List o.Corner} {cut : List (Triangle o.Corner)}
    {j : o.Corner} (h : o.findEar? ring = some (cut, j)) : ∃ t ∈ turns ring, t.b = j ∧
      (cut = [] ∧ approxZero (o.points t).turn = true ∨ cut = [t]) := by
  obtain ⟨t, ht, hear⟩ := List.exists_of_findSome?_eq_some h
  refine ⟨t, ht, (snd_eq_of_ear?_eq_some o hear).symm, ?_⟩
  simp only [ear?] at hear
  split at hear
  · next hflat =>
    cases hear
    exact .inl ⟨rfl, hflat⟩
  · split at hear
    · cases hear
      exact .inr rfl
    · cases hear

/-- A ring of `n` corners is clipped into at most `n - 2` triangles. -/
theorem length_clip_le (ring : List o.Corner) : (o.clip ring).length ≤ ring.length - 2 := by
  induction hn : ring.length using Nat.strong_induction_on generalizing ring with
  | _ n ih =>
    subst hn
    by_cases hlen : ring.length ≤ 3
    · rw [clip_of_length_le hlen, ← length_fan]
      exact List.length_filter_le _ _
    · cases hfind : o.findEar? ring with
      | none => rw [clip_of_findEar?_eq_none hlen hfind, length_fan]
      | some r =>
        obtain ⟨t, ht, hj, hcut⟩ := exists_of_findEar?_eq_some hfind
        have hmem := mem_of_findEar?_eq_some o hfind
        have herase := List.length_erase_of_mem hmem
        have hrest := ih _ (by omega) (ring.erase r.2) rfl
        have hcut : r.1.length ≤ 1 := by rcases hcut with ⟨h, -⟩ | h <;> simp [h]
        rw [clip_of_findEar?_eq_some hlen hfind, List.length_append]
        omega

/-- A ring of `n` corners that is clipped into `n - 2` triangles is what they carry. -/
theorem around_clip (hf : Alternating f) {ring : List o.Corner} (hnodup : ring.Nodup)
    (h : 2 ≤ ring.length) (hall : (o.clip ring).length = ring.length - 2) :
    around f (o.clip ring) = along f true ring := by
  induction hn : ring.length using Nat.strong_induction_on generalizing ring with
  | _ n ih =>
    subst hn
    by_cases hlen : ring.length ≤ 3
    · rw [clip_of_length_le hlen] at hall ⊢
      rw [← length_fan] at hall
      rw [List.filter_eq_self.2 (List.length_filter_eq_length_iff.1 hall), around_fan hf h]
    · cases hfind : o.findEar? ring with
      | none => rw [clip_of_findEar?_eq_none hlen hfind, around_fan hf h]
      | some r =>
        obtain ⟨t, ht, hj, hcut⟩ := exists_of_findEar?_eq_some hfind
        have hmem := mem_of_findEar?_eq_some o hfind
        have herase := List.length_erase_of_mem hmem
        have hrest := length_clip_le (ring.erase r.2)
        rw [clip_of_findEar?_eq_some hlen hfind, List.length_append] at hall
        -- A corner that is dropped leaves too few triangles.
        have hcut : r.1 = [t] := hcut.resolve_left fun ⟨hnil, _⟩ => by
          rw [hnil, List.length_nil] at hall
          omega
        rw [hcut, List.length_singleton] at hall
        rw [clip_of_findEar?_eq_some hlen hfind, hcut, around_append,
          ih _ (by omega) (hnodup.erase r.2) (by omega) (by omega) rfl,
          along_eq_erase_add hf hnodup ht, hj, add_comm]

omit [AddCommGroup G] in
/-- An outline of `n` corners is cut into at most `n - 2` triangles. -/
theorem length_triangulate_le (o : Outline α) : o.triangulate.length ≤ o.size - 2 := by
  rw [triangulate]
  split
  · exact Nat.zero_le _
  · refine (length_clip_le _).trans_eq ?_
    split <;> simp

/-- An outline of `n` corners that is cut into `n - 2` triangles is what they carry, walked backward
    if it is clockwise. -/
theorem around_triangulate (hf : Alternating f) (h : 2 ≤ o.size)
    (hall : o.triangulate.length = o.size - 2) :
    around f o.triangulate = if o.signedArea < 0.0 then -along f true (List.finRange o.size)
      else along f true (List.finRange o.size) := by
  have hring : (List.finRange o.size).Nodup := List.nodup_finRange _
  rw [triangulate] at hall ⊢
  split at hall
  · next hsize =>
    -- Two corners make no triangle, and what flows from one to the other flows back.
    rw [if_pos hsize]
    have hfan : around f (fan (List.finRange o.size)) = along f true (List.finRange o.size) :=
      around_fan hf (by simpa using h)
    have hnil : fan (List.finRange o.size) = [] := by
      rw [← List.length_eq_zero_iff, length_fan, List.length_finRange]
      omega
    rw [← hfan, hnil]
    split
    · exact neg_zero.symm
    · rfl
  · next hsize =>
    rw [if_neg hsize]
    dsimp only at hall ⊢
    split at hall
    · next harea =>
      rw [if_pos harea, if_pos harea, around_clip hf (List.nodup_reverse.2 hring) (by simpa using h)
        (by simpa using hall), along_true_reverse hf]
    · next harea =>
      rw [if_neg harea, if_neg harea, around_clip hf hring (by simpa using h) (by simpa using hall)]

end Outline

end Solids
