import Solids.Proofs.Mesh.Circulation
import Solids.Proofs.Mesh.WellFormed

/-!
# Closed surfaces

Triangles make a closed surface (`Closed`) if every directed edge belongs to exactly one of them,
and its reverse to exactly one other. So exactly two triangles meet at every edge, and they face to
the same side of the surface.

Watertight triangles, of which no edge occurs twice, are closed (`closed_of_around`): what flows
around them is nothing, so that with an edge there is its reverse. Closed surfaces stay such in
another order (`Closed.perm`), turned around (`Closed.flip`), and under other names for their
corners (`Closed.map`).
-/

namespace Solids

variable {β γ : Type} {P : β → Prop} {t : Triangle β} {ts us : List (Triangle β)} {e : β × β}

/-- What elements of a list contribute to a list without repetitions occurs there once, if it tells
    the element that it comes from. -/
theorem nodup_flatMap_of_inj {γ : Type} {f : β → List γ} {xs : List β} (hxs : xs.Nodup)
    (hf : ∀ x ∈ xs, (f x).Nodup) (hinj : ∀ x ∈ xs, ∀ y ∈ xs, ∀ z, z ∈ f x → z ∈ f y → x = y) :
    (xs.flatMap f).Nodup :=
  List.nodup_flatMap.2 ⟨hf, hxs.pairwise_of_forall_ne fun x hx y hy hne z hzx hzy =>
    hne (hinj x hx y hy z hzx hzy)⟩

/-! ## Steps around a ring -/

/-- The ends of a step around a ring are in places that follow each other. -/
theorem exists_getElem_of_mem_steps {ring : List β} (he : e ∈ steps true ring) :
    ∃ i, ∃ hi : i < ring.length, ∃ hnext : (i + 1) % ring.length < ring.length,
      e.1 = ring[i] ∧ e.2 = ring[(i + 1) % ring.length] := by
  rw [steps_true_eq_zip_rotate] at he
  obtain ⟨i, hi, rfl⟩ := List.mem_iff_getElem.1 he
  rw [List.length_zip, List.length_rotate, Nat.min_self] at hi
  exact ⟨i, hi, Nat.mod_lt _ (Nat.zero_lt_of_lt hi), by simp, by simp [List.getElem_rotate]⟩

/-- A step around a ring of two elements or more leads from one of them to another. -/
theorem fst_ne_snd_of_mem_steps {ring : List β} (hring : ring.Nodup) (h : 2 ≤ ring.length)
    (he : e ∈ steps true ring) : e.1 ≠ e.2 := by
  obtain ⟨i, hi, _, h₁, h₂⟩ := exists_getElem_of_mem_steps he
  rw [h₁, h₂, Ne, hring.getElem_inj_iff]
  rcases Nat.lt_or_ge (i + 1) ring.length with hlt | hge
  · rw [Nat.mod_eq_of_lt hlt]
    omega
  · rw [Nat.mod_eq_sub_mod hge, Nat.mod_eq_of_lt (by omega)]
    omega

/-- No step around a ring of three elements or more leads back where another came from. -/
theorem swap_not_mem_steps {ring : List β} (hring : ring.Nodup) (h : 3 ≤ ring.length)
    (he : e ∈ steps true ring) : e.swap ∉ steps true ring := by
  intro hswap
  obtain ⟨i, hi, _, h₁, h₂⟩ := exists_getElem_of_mem_steps he
  obtain ⟨j, hj, _, h₁', h₂'⟩ := exists_getElem_of_mem_steps hswap
  have hij : (i + 1) % ring.length = j := hring.getElem_inj_iff.1 (h₂.symm.trans h₁')
  have hji : (j + 1) % ring.length = i := hring.getElem_inj_iff.1 (h₂'.symm.trans h₁)
  -- Two steps on, there is no way around a longer ring.
  rw [← hij, Nat.mod_add_mod] at hji
  rcases Nat.lt_or_ge (i + 1 + 1) ring.length with hlt | hge
  · rw [Nat.mod_eq_of_lt hlt] at hji
    omega
  · rw [Nat.mod_eq_sub_mod hge, Nat.mod_eq_of_lt (by omega)] at hji
    omega

/-- A step around a ring is known by where it starts. -/
theorem eq_of_fst_eq {ring : List β} (hring : ring.Nodup) {s s' : β × β}
    (hs : s ∈ steps true ring) (hs' : s' ∈ steps true ring) (h : s.1 = s'.1) : s = s' := by
  rw [← map_fst_steps_true ring] at hring
  exact List.inj_on_of_nodup_map hring hs hs' h

/-- A step around a ring is known by where it ends. -/
theorem eq_of_snd_eq {ring : List β} (hring : ring.Nodup) {s s' : β × β}
    (hs : s ∈ steps true ring) (hs' : s' ∈ steps true ring) (h : s.2 = s'.2) : s = s' :=
  List.inj_on_of_nodup_map ((map_snd_steps_true_perm ring).nodup_iff.2 hring) hs hs' h

/-- The steps along a sequence are steps around it, too. -/
theorem steps_false_sublist (xs : List β) : (steps false xs).Sublist (steps true xs) := by
  cases xs with
  | nil => exact .slnil
  | cons x xs =>
    rw [steps_true_eq_concat]
    exact List.sublist_append_left _ _

/-- No step around a ring is made twice. -/
theorem nodup_steps {ring : List β} (hring : ring.Nodup) (closed : Bool) :
    (steps closed ring).Nodup := by
  have hclosed : (steps true ring).Nodup :=
    .of_map Prod.fst ((map_fst_steps_true ring).symm ▸ hring)
  cases closed with
  | false => exact hclosed.sublist (steps_false_sublist ring)
  | true => exact hclosed

namespace Triangle

/-- The edges of an image are the images of the edges. -/
theorem edges_map (g : β → γ) (t : Triangle β) : (t.map g).edges = t.edges.map (Prod.map g g) :=
  rfl

/-- A triangle that is turned around has its edges in reverse. -/
theorem edges_flip_perm (t : Triangle β) : t.flip.edges.Perm (t.edges.map Prod.swap) :=
  List.reverse_perm (t.edges.map Prod.swap)

/-- A triangle that is turned around has different corners if it has. -/
theorem nodup_flip : t.flip.toList.Nodup ↔ t.toList.Nodup :=
  (List.Perm.cons t.a (List.Perm.swap t.b t.c [])).nodup_iff

/-- The edges of a triangle lead from corner to corner. -/
theorem Over.of_mem_edges (h : t.Over P) (he : e ∈ t.edges) : P e.1 ∧ P e.2 := by
  simp only [edges, List.mem_cons, List.not_mem_nil, or_false] at he
  rcases he with rfl | rfl | rfl
  · exact ⟨h.1, h.2.1⟩
  · exact ⟨h.2.1, h.2.2⟩
  · exact ⟨h.2.2, h.1⟩

/-- A triangle of three different corners has no edge in both directions. -/
theorem swap_not_mem_edges (h : t.toList.Nodup) (he : e ∈ t.edges) : e.swap ∉ t.edges := by
  simp only [toList, List.nodup_cons, List.mem_cons, List.not_mem_nil, or_false, not_or] at h
  simp only [edges, List.mem_cons, List.not_mem_nil, or_false, Prod.ext_iff, Prod.fst_swap,
    Prod.snd_swap] at he ⊢
  grind

/-- Triangles are told apart by names that tell their corners apart. -/
theorem eq_of_map_eq {g : β → γ} {t u : Triangle β} (ht : t.Over P) (hu : u.Over P)
    (hg : ∀ x y, P x → P y → g x = g y → x = y) (h : t.map g = u.map g) : t = u := by
  obtain ⟨a, b, c⟩ := t
  obtain ⟨a', b', c'⟩ := u
  obtain ⟨ha, hb, hc⟩ := mk.inj h
  rw [mk.injEq]
  exact ⟨hg _ _ ht.1 hu.1 ha, hg _ _ ht.2.1 hu.2.1 hb, hg _ _ ht.2.2 hu.2.2 hc⟩

/-- Triangles that are turned around twice are as before. -/
theorem map_flip_map_flip (ts : List (Triangle β)) :
    (ts.map Triangle.flip).map Triangle.flip = ts := by
  rw [List.map_map]
  exact List.map_id ts

end Triangle

/-- Triangles that are turned around have their edges in reverse. -/
theorem edges_flip_perm (ts : List (Triangle β)) :
    ((ts.map Triangle.flip).flatMap Triangle.edges).Perm
      ((ts.flatMap Triangle.edges).map Prod.swap) := by
  rw [List.flatMap_map, List.map_flatMap]
  exact List.Perm.flatMap_left ts fun t _ => t.edges_flip_perm

/-- Triangles from edges to a corner. -/
def joined (es : List (β × β)) (q : β) : List (Triangle β) := es.map fun e => ⟨e.1, e.2, q⟩

/-- Triangles from edges to a corner share no edge, as long as the edges neither start nor end where
    another one does, nor at that corner. -/
theorem nodup_edges_joined {es : List (β × β)} (hstarts : (es.map Prod.fst).Nodup)
    (hends : (es.map Prod.snd).Nodup) {q : β} (hq : ∀ e ∈ es, e.1 ≠ q ∧ e.2 ≠ q) :
    ((joined es q).flatMap Triangle.edges).Nodup := by
  rw [joined, List.flatMap_map]
  refine nodup_flatMap_of_inj (.of_map _ hstarts) (fun e he => ?_) fun e he e' he' z hz hz' => ?_
  · obtain ⟨hstart, hend⟩ := hq e he
    simp only [Triangle.edges, List.nodup_cons, List.mem_cons, Prod.mk.injEq]
    grind
  · obtain ⟨hstart, hend⟩ := hq e he
    obtain ⟨hstart', hend'⟩ := hq e' he'
    have hsame₁ := List.inj_on_of_nodup_map hstarts he he'
    have hsame₂ := List.inj_on_of_nodup_map hends he he'
    simp only [Triangle.edges, List.mem_cons, List.not_mem_nil, or_false] at hz hz'
    grind

/-- Around triangles from edges to a corner flows what flows along the edges, and to the corner from
    their ends but not from their starts. -/
theorem around_joined_eq {f : β → β → ℤ} (hf : Alternating f) (es : List (β × β)) (q : β) :
    around f (joined es q) =
      (es.map fun e => f e.1 e.2).sum + (es.map fun e => f e.2 q - f e.1 q).sum := by
  induction es with
  | nil => rfl
  | cons e es ih =>
    change around f (⟨e.1, e.2, q⟩ :: joined es q) = _
    rw [around_cons, ih, around_singleton, hf.swap e.1 q, List.map_cons, List.sum_cons,
      List.map_cons, List.sum_cons]
    ring

/-- Every directed edge belongs to exactly one triangle, and its reverse to exactly one other. -/
structure Closed (ts : List (Triangle β)) : Prop where
  /-- No directed edge occurs twice. -/
  nodup : (ts.flatMap Triangle.edges).Nodup
  exists_swap_mem : ∀ t ∈ ts, ∀ e ∈ t.edges, ∃ u ∈ ts, u ≠ t ∧ e.swap ∈ u.edges

/-- Triangles of different corners are closed if nothing flows around them, whatever flows, and no
    directed edge occurs twice. -/
theorem closed_of_around [DecidableEq β] (hnodup : (ts.flatMap Triangle.edges).Nodup)
    (hcorners : ∀ t ∈ ts, t.toList.Nodup)
    (haround : ∀ f : β → β → ℤ, Alternating f → around f ts = 0) : Closed ts := by
  refine ⟨hnodup, fun t ht e he => ?_⟩
  have hcount : (ts.flatMap Triangle.edges).count e = 1 :=
    List.count_eq_one_of_mem hnodup (List.mem_flatMap.2 ⟨t, ht, he⟩)
  -- The reverse occurs as often.
  rw [count_swap_of_around haround] at hcount
  obtain ⟨u, hu, hswap⟩ :=
    List.mem_flatMap.1 (List.count_pos_iff.1 (hcount ▸ Nat.one_pos))
  refine ⟨u, hu, ?_, hswap⟩
  rintro rfl
  exact Triangle.swap_not_mem_edges (hcorners u hu) he hswap

namespace Closed

/-- The order of the triangles does not matter. -/
theorem perm (h : Closed ts) (hperm : ts.Perm us) : Closed us where
  nodup := (hperm.flatMap_right _).nodup_iff.1 h.nodup
  exists_swap_mem t ht e he := by
    obtain ⟨u, hu, hne, hswap⟩ := h.exists_swap_mem t (hperm.mem_iff.2 ht) e he
    exact ⟨u, hperm.mem_iff.1 hu, hne, hswap⟩

/-- A closed surface is closed seen from its other side. -/
theorem flip (h : Closed ts) : Closed (ts.map Triangle.flip) where
  nodup := (edges_flip_perm ts).nodup_iff.2 (h.nodup.map Prod.swap_injective)
  exists_swap_mem := by
    refine List.forall_mem_map.2 fun t ht e he => ?_
    obtain ⟨e', he', rfl⟩ := List.mem_map.1 (t.edges_flip_perm.mem_iff.1 he)
    obtain ⟨u, hu, hne, hswap⟩ := h.exists_swap_mem t ht e' he'
    refine ⟨u.flip, List.mem_map_of_mem hu, fun heq => hne ?_, ?_⟩
    · rw [← u.flip_flip, heq, t.flip_flip]
    · exact u.edges_flip_perm.mem_iff.2 (List.mem_map_of_mem hswap)

/-- A closed surface is closed under other names for its corners. -/
theorem map {g : β → γ} (h : Closed ts) (hP : ∀ t ∈ ts, t.Over P)
    (hg : ∀ x y, P x → P y → g x = g y → x = y) : Closed (ts.map (.map g)) where
  nodup := by
    have hedges : (ts.map (.map g)).flatMap Triangle.edges =
        (ts.flatMap Triangle.edges).map (Prod.map g g) := by
      rw [List.flatMap_map, List.map_flatMap]
      rfl
    rw [hedges]
    refine h.nodup.map_on fun e he e' he' heq => ?_
    obtain ⟨t, ht, he⟩ := List.mem_flatMap.1 he
    obtain ⟨t', ht', he'⟩ := List.mem_flatMap.1 he'
    obtain ⟨h₁, h₂⟩ := (hP t ht).of_mem_edges he
    obtain ⟨h₁', h₂'⟩ := (hP t' ht').of_mem_edges he'
    obtain ⟨heq₁, heq₂⟩ := Prod.ext_iff.1 heq
    exact Prod.ext (hg _ _ h₁ h₁' heq₁) (hg _ _ h₂ h₂' heq₂)
  exists_swap_mem := by
    refine List.forall_mem_map.2 fun t ht e he => ?_
    rw [Triangle.edges_map] at he
    obtain ⟨e', he', rfl⟩ := List.mem_map.1 he
    obtain ⟨u, hu, hne, hswap⟩ := h.exists_swap_mem t ht e' he'
    refine ⟨u.map g, List.mem_map_of_mem hu, fun heq => hne ?_, ?_⟩
    · exact Triangle.eq_of_map_eq (hP u hu) (hP t ht) hg heq
    · rw [Triangle.edges_map]
      exact List.mem_map_of_mem hswap

end Closed

end Solids
