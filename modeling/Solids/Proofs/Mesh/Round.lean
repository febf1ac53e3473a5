import Solids.Proofs.Mesh.Closed
import Solids.Proofs.Mesh.Shapes

/-!
# Round shapes are closed

Cylinders, cones and spheres are built up from a cap, ring by ring. The surface that is there after
each ring is a *dome* (`Dome`): no directed edge occurs twice in it, and what flows around it is
what flows around its ring, which is its border. A fan is a dome over its ring (`dome_fan`), a skirt
leads from the ring of a dome to the next one (`Dome.skirt`), and a dome is closed by a floor below
its last skirt (`Dome.closed_floor`) or by an apex (`Dome.closed_apex`).

* `Primitive.closed_round`: the round shapes of any number of segments are closed surfaces, of the
  number of vertices and triangles that their rings give, and use every vertex.
-/

namespace Solids

variable {β : Type}

/-! ## Domes -/

/-- Triangles whose border is a ring, walked as the triangles at it are. -/
structure Dome (ring : List β) (ts : List (Triangle β)) : Prop where
  nodup : (ts.flatMap Triangle.edges).Nodup
  corners : ∀ t ∈ ts, t.toList.Nodup
  around_eq : ∀ f : β → β → ℤ, Alternating f → around f ts = along f true ring

variable {P : β → Prop} {ring upper lower : List β} {ts : List (Triangle β)} {e : β × β}

/-- A fan is a dome over its ring. -/
theorem dome_fan (hring : ring.Nodup) (h : 2 ≤ ring.length) : Dome ring (fan ring) where
  nodup := by
    cases ring with
    | nil => exact List.nodup_nil
    | cons x xs =>
      obtain ⟨hx, hxs⟩ := List.nodup_cons.1 hring
      rw [fan, List.flatMap_map]
      refine nodup_flatMap_of_inj (nodup_steps hxs false) (fun s hs => ?_)
        fun s hs s' hs' e he he' => ?_
      · have hsub := sublist_of_mem_steps hs
        have hmem := mem_of_mem_steps hs
        simp only [Triangle.edges, List.nodup_cons, List.mem_cons, Prod.mk.injEq]
        grind
      · have hmem := mem_of_mem_steps hs
        have hmem' := mem_of_mem_steps hs'
        have hclosed := (steps_false_sublist xs).subset
        have hfst := eq_of_fst_eq hxs (hclosed hs) (hclosed hs')
        have hsnd := eq_of_snd_eq hxs (hclosed hs) (hclosed hs')
        simp only [Triangle.edges, List.mem_cons, List.not_mem_nil, or_false, Prod.ext_iff]
          at he he'
        grind
  corners t ht := hring.sublist (sublist_of_mem_fan ht)
  around_eq f hf := around_fan hf h

namespace Dome

/-- No triangle of a dome goes along its border backward. -/
theorem swap_not_mem (h : Dome ring ts) (hring : ring.Nodup) (hlength : 3 ≤ ring.length)
    (he : e ∈ steps true ring) : e.swap ∉ ts.flatMap Triangle.edges := by
  classical
  -- An edge of the border occurs once more forward than backward, and no more than once.
  have hcount := count_add_count_of_sum_eq h.around_eq e.1 e.2
  have hforward := List.count_eq_one_of_mem (nodup_steps hring true) he
  have hbackward := List.count_eq_zero.2 (swap_not_mem_steps hring hlength he)
  have honce := List.nodup_iff_count_le_one.1 h.nodup e
  rw [← List.count_eq_zero]
  change _ + (steps true ring).count e.swap = _ + (steps true ring).count e at hcount
  change (ts.flatMap Triangle.edges).count e + _ =
    (ts.flatMap Triangle.edges).count e.swap + _ at hcount
  omega

end Dome

namespace Primitive

variable {P : Nat → Prop} {ring upper lower : List Nat} {ts : List (Triangle Nat)}

/-! ## Skirts and floors -/

/-- A skirt is a band that faces the other way. -/
theorem skirt_perm (upper lower : List Nat) :
    (skirt upper lower).Perm ((band true upper lower).map Triangle.flip) := by
  rw [skirt, band, List.map_flatMap]
  exact List.Perm.flatMap_left _ fun s _ => .swap _ _ _

/-- The edges of the two triangles of a square of a skirt, from two corners above each other to the
    next two. -/
def squareEdges (s : (Nat × Nat) × (Nat × Nat)) : List (Nat × Nat) :=
  [(s.1.1, s.1.2), (s.1.2, s.2.2), (s.2.2, s.1.1), (s.1.1, s.2.2), (s.2.2, s.2.1), (s.2.1, s.1.1)]

/-- The edges of a skirt are those of its squares. -/
theorem edges_skirt (upper lower : List Nat) : (skirt upper lower).flatMap Triangle.edges =
    (steps true (upper.zip lower)).flatMap squareEdges := by
  rw [skirt, List.flatMap_assoc]
  rfl

section Skirt

variable (hupper : upper.Nodup) (hlower : lower.Nodup) (hdisjoint : upper.Disjoint lower)
  (hlength : upper.length = lower.length)

section Squares

variable {s s' : (Nat × Nat) × (Nat × Nat)} (hs : s ∈ steps true (upper.zip lower))
include hs

include hupper hlower hlength in
/-- Two squares of a skirt have no corner in the same place of both. -/
theorem eq_of_corner_eq (hs' : s' ∈ steps true (upper.zip lower))
    (h : s.1.1 = s'.1.1 ∨ s.1.2 = s'.1.2 ∨ s.2.1 = s'.2.1 ∨ s.2.2 = s'.2.2) : s = s' := by
  have hfst : ((upper.zip lower).map Prod.fst).Nodup := by rwa [List.map_fst_zip hlength.le]
  have hsnd : ((upper.zip lower).map Prod.snd).Nodup := by rwa [List.map_snd_zip hlength.ge]
  obtain ⟨h₁, h₂⟩ := mem_of_mem_steps hs
  obtain ⟨h₁', h₂'⟩ := mem_of_mem_steps hs'
  rcases h with h | h | h | h
  · exact eq_of_fst_eq hfst.of_map hs hs' (List.inj_on_of_nodup_map hfst h₁ h₁' h)
  · exact eq_of_fst_eq hfst.of_map hs hs' (List.inj_on_of_nodup_map hsnd h₁ h₁' h)
  · exact eq_of_snd_eq hfst.of_map hs hs' (List.inj_on_of_nodup_map hfst h₂ h₂' h)
  · exact eq_of_snd_eq hfst.of_map hs hs' (List.inj_on_of_nodup_map hsnd h₂ h₂' h)

include hupper hlower hdisjoint hlength in
/-- The corners of a square of a skirt are different. -/
theorem nodup_square (h : 2 ≤ upper.length) : [s.1.1, s.1.2, s.2.1, s.2.2].Nodup := by
  have hfst : ((upper.zip lower).map Prod.fst).Nodup := by rwa [List.map_fst_zip hlength.le]
  have hsnd : ((upper.zip lower).map Prod.snd).Nodup := by rwa [List.map_snd_zip hlength.ge]
  have hlong : 2 ≤ (upper.zip lower).length := by rwa [List.length_zip, ← hlength, Nat.min_self]
  obtain ⟨h₁, h₂⟩ := mem_of_mem_steps hs
  have hne := fst_ne_snd_of_mem_steps hfst.of_map hlong hs
  have hupper : s.1.1 ≠ s.2.1 := fun heq => hne (List.inj_on_of_nodup_map hfst h₁ h₂ heq)
  have hlower : s.1.2 ≠ s.2.2 := fun heq => hne (List.inj_on_of_nodup_map hsnd h₁ h₂ heq)
  have hacross (x) (hx : x ∈ upper) (y) (hy : y ∈ lower) : x ≠ y :=
    fun heq => hdisjoint hx (heq ▸ hy)
  have := List.of_mem_zip h₁
  have := List.of_mem_zip h₂
  simp only [List.nodup_cons, List.mem_cons, List.not_mem_nil]
  grind

end Squares

include hupper hlower hdisjoint hlength

/-- No edge occurs twice in a skirt. -/
theorem nodup_edges_skirt (h : 2 ≤ upper.length) :
    ((skirt upper lower).flatMap Triangle.edges).Nodup := by
  have hzip : (upper.zip lower).Nodup := by
    rw [← List.map_fst_zip hlength.le] at hupper
    exact hupper.of_map
  rw [edges_skirt]
  refine nodup_flatMap_of_inj (nodup_steps hzip true) (fun s hs => ?_)
    fun s hs s' hs' e he he' => eq_of_corner_eq hupper hlower hlength hs hs' ?_
  · have hs := nodup_square hupper hlower hdisjoint hlength hs h
    simp only [squareEdges, List.nodup_cons, List.mem_cons, List.not_mem_nil, Prod.mk.injEq] at hs ⊢
    grind
  · -- An edge leads along one ring, or from one to the other, and differs from the others there.
    have hacross (x) (hx : x ∈ upper) (y) (hy : y ∈ lower) : x ≠ y :=
      fun heq => hdisjoint hx (heq ▸ hy)
    have hs₁ := List.of_mem_zip (mem_of_mem_steps hs).1
    have hs₂ := List.of_mem_zip (mem_of_mem_steps hs).2
    have hs₁' := List.of_mem_zip (mem_of_mem_steps hs').1
    have hs₂' := List.of_mem_zip (mem_of_mem_steps hs').2
    have hs := nodup_square hupper hlower hdisjoint hlength hs h
    have hs' := nodup_square hupper hlower hdisjoint hlength hs' h
    simp only [squareEdges, List.nodup_cons, List.mem_cons, List.not_mem_nil, or_false,
      Prod.ext_iff] at he he' hs hs'
    grind

/-- The triangles of a skirt have different corners. -/
theorem nodup_of_mem_skirt (h : 2 ≤ upper.length) {t : Triangle Nat}
    (ht : t ∈ skirt upper lower) : t.toList.Nodup := by
  obtain ⟨s, hs, ht⟩ := List.mem_flatMap.1 ht
  refine List.Nodup.sublist (sublist_of_mem_fan ht) ?_
  have hs := nodup_square hupper hlower hdisjoint hlength hs h
  simp only [List.nodup_cons, List.mem_cons, List.not_mem_nil] at hs ⊢
  grind

end Skirt

/-- An edge of a skirt leads back around the upper ring, on around the lower one, or from one to the
    other. -/
theorem of_mem_edges_skirt {e : Nat × Nat} (hlength : upper.length = lower.length)
    (he : e ∈ (skirt upper lower).flatMap Triangle.edges) :
    e.swap ∈ steps true upper ∨ e ∈ steps true lower ∨ (e.1 ∈ upper ∧ e.2 ∈ lower) ∨
      (e.1 ∈ lower ∧ e.2 ∈ upper) := by
  rw [edges_skirt] at he
  obtain ⟨s, hs, he⟩ := List.mem_flatMap.1 he
  have hs₁ := List.of_mem_zip (mem_of_mem_steps hs).1
  have hs₂ := List.of_mem_zip (mem_of_mem_steps hs).2
  have hupper : (s.1.1, s.2.1) ∈ steps true upper := by
    rw [← List.map_fst_zip hlength.le, steps_map]
    exact List.mem_map_of_mem (f := fun s : (Nat × Nat) × (Nat × Nat) => (s.1.1, s.2.1)) hs
  have hlower : (s.1.2, s.2.2) ∈ steps true lower := by
    rw [← List.map_snd_zip hlength.ge, steps_map]
    exact List.mem_map_of_mem (f := fun s : (Nat × Nat) × (Nat × Nat) => (s.1.2, s.2.2)) hs
  simp only [squareEdges, List.mem_cons, List.not_mem_nil, or_false] at he
  rcases he with rfl | rfl | rfl | rfl | rfl | rfl
  · exact .inr (.inr (.inl ⟨hs₁.1, hs₁.2⟩))
  · exact .inr (.inl hlower)
  · exact .inr (.inr (.inr ⟨hs₂.2, hs₁.1⟩))
  · exact .inr (.inr (.inl ⟨hs₁.1, hs₂.2⟩))
  · exact .inr (.inr (.inr ⟨hs₂.2, hs₂.1⟩))
  · exact .inl hupper

/-- The elements of both rings are corners of the skirt between them. -/
theorem exists_mem_skirt {i : Nat} (hlength : upper.length = lower.length)
    (hi : i ∈ upper ∨ i ∈ lower) : ∃ t ∈ skirt upper lower, i ∈ t.toList := by
  obtain ⟨p, hp, hi⟩ : ∃ p ∈ upper.zip lower, i = p.1 ∨ i = p.2 := by
    rcases hi with hi | hi
    · rw [← List.map_fst_zip hlength.le] at hi
      obtain ⟨p, hp, rfl⟩ := List.mem_map.1 hi
      exact ⟨p, hp, .inl rfl⟩
    · rw [← List.map_snd_zip hlength.ge] at hi
      obtain ⟨p, hp, rfl⟩ := List.mem_map.1 hi
      exact ⟨p, hp, .inr rfl⟩
  rw [← map_fst_steps_true (upper.zip lower)] at hp
  obtain ⟨s, hs, rfl⟩ := List.mem_map.1 hp
  refine ⟨⟨s.1.1, s.1.2, s.2.2⟩, List.mem_flatMap.2 ⟨s, hs, List.mem_cons_self⟩, ?_⟩
  rcases hi with rfl | rfl <;> simp [Triangle.toList]

/-- A skirt has two triangles for every element of a ring. -/
theorem length_skirt (hlength : upper.length = lower.length) :
    (skirt upper lower).length = 2 * upper.length := by
  have hsquare (s : (Nat × Nat) × (Nat × Nat)) :
      (fan [s.1.1, s.1.2, s.2.2, s.2.1]).length = 2 := rfl
  rw [skirt, List.length_flatMap]
  simp only [hsquare]
  rw [List.map_const', List.sum_replicate_nat, length_steps_true, List.length_zip, ← hlength,
    Nat.min_self, Nat.mul_comm]

/-- What flows around a skirt flows around its lower ring, and not around the upper. -/
theorem around_skirt {f : Nat → Nat → ℤ} (hf : Alternating f)
    (hlength : upper.length = lower.length) :
    around f (skirt upper lower) = along f true lower - along f true upper := by
  rw [around_perm (skirt_perm upper lower), around_flip hf, around_band hf hlength, neg_sub]

end Primitive

/-! ## Closing a dome -/

namespace Dome

open Primitive (skirt floor)

variable {P : Nat → Prop} {ring upper lower : List Nat} {ts : List (Triangle Nat)} {e : Nat × Nat}

/-- The edges of a dome are between its corners. -/
theorem over_of_mem_edges (hP : ∀ t ∈ ts, t.Over P) (he : e ∈ ts.flatMap Triangle.edges) :
    P e.1 ∧ P e.2 := by
  obtain ⟨t, ht, he⟩ := List.mem_flatMap.1 he
  exact (hP t ht).of_mem_edges he

section Skirt

variable (h : Dome upper ts) (hP : ∀ t ∈ ts, t.Over P) (hupper : upper.Nodup)
  (hupperP : ∀ x ∈ upper, P x) (hlower : lower.Nodup) (hlowerP : ∀ x ∈ lower, ¬P x)
  (hlength : upper.length = lower.length) (hlong : 3 ≤ upper.length)
include h hP hupper hupperP hlower hlowerP hlength hlong

/-- A skirt to a ring that is not there yet makes a dome of a dome. -/
theorem skirt : Dome lower (ts ++ skirt upper lower) where
  nodup := by
    have hdisjoint : upper.Disjoint lower := fun x hx hx' => hlowerP x hx' (hupperP x hx)
    rw [List.flatMap_append, List.nodup_append']
    refine ⟨h.nodup, Primitive.nodup_edges_skirt hupper hlower hdisjoint hlength (by omega), ?_⟩
    intro e he he'
    obtain ⟨hfst, hsnd⟩ := over_of_mem_edges hP he
    -- Only the way back around the upper ring is between corners of the dome, and not in it.
    rcases Primitive.of_mem_edges_skirt hlength he' with hstep | hstep | ⟨_, hnew⟩ | ⟨hnew, _⟩
    · exact h.swap_not_mem hupper hlong hstep (e.swap_swap ▸ he)
    · exact hlowerP _ (mem_of_mem_steps hstep).1 hfst
    · exact hlowerP _ hnew hsnd
    · exact hlowerP _ hnew hfst
  corners t ht := by
    have hdisjoint : upper.Disjoint lower := fun x hx hx' => hlowerP x hx' (hupperP x hx)
    rcases List.mem_append.1 ht with ht | ht
    · exact h.corners t ht
    · exact Primitive.nodup_of_mem_skirt hupper hlower hdisjoint hlength (by omega) ht
  around_eq f hf := by
    rw [around_append, h.around_eq f hf, Primitive.around_skirt hf hlength, add_sub_cancel]

/-- A skirt and a floor below it close a dome. -/
theorem closed_floor : Closed (ts ++ Primitive.skirt upper lower ++ floor lower) := by
  have hdome := h.skirt hP hupper hupperP hlower hlowerP hlength hlong
  have hfloor := dome_fan hlower (by omega)
  have hedges : ((floor lower).flatMap Triangle.edges).Perm
      (((fan lower).flatMap Triangle.edges).map Prod.swap) := edges_flip_perm _
  refine closed_of_around ?_ (fun t ht => ?_) fun f hf => ?_
  · rw [List.flatMap_append, List.nodup_append']
    refine ⟨hdome.nodup, hedges.nodup_iff.2 (hfloor.nodup.map Prod.swap_injective), ?_⟩
    intro e he he'
    obtain ⟨e, hfan, rfl⟩ := List.mem_map.1 (hedges.mem_iff.1 he')
    obtain ⟨hfst, hsnd⟩ := over_of_mem_edges (fun t => over_of_mem_fan fun _ hx => hx) hfan
    -- Between the corners of the floor the dome has its border only, and the floor its reverse.
    rw [List.flatMap_append] at he
    rcases List.mem_append.1 he with he | he
    · exact hlowerP _ hsnd (over_of_mem_edges hP he).1
    · rcases Primitive.of_mem_edges_skirt hlength he with hstep | hstep | ⟨hold, _⟩ | ⟨_, hold⟩
      · exact hlowerP _ hfst (hupperP _ (mem_of_mem_steps hstep).1)
      · exact hfloor.swap_not_mem hlower (by omega) hstep hfan
      · exact hlowerP _ hsnd (hupperP _ hold)
      · exact hlowerP _ hfst (hupperP _ hold)
  · rcases List.mem_append.1 ht with ht | ht
    · exact hdome.corners t ht
    · obtain ⟨u, hu, rfl⟩ := List.mem_map.1 ht
      exact Triangle.nodup_flip.2 (hfloor.corners u hu)
  · rw [around_append, hdome.around_eq f hf, floor, around_flip hf, hfloor.around_eq f hf,
      add_neg_cancel]

end Skirt

/-- Sides from a ring to an apex are the triangles over its steps, turned around. -/
theorem sides_eq_flip (ring : List Nat) (apex : Nat) :
    ((steps true ring).map fun s => (⟨s.1, apex, s.2⟩ : Triangle Nat)) =
      (joined (steps true ring) apex).map Triangle.flip := by
  rw [joined, List.map_map]
  rfl

/-- Sides from a ring to an apex share no edge. -/
theorem nodup_edges_sides (hring : ring.Nodup) {apex : Nat}
    (hne : ∀ s ∈ steps true ring, s.1 ≠ apex ∧ s.2 ≠ apex) :
    (((steps true ring).map fun s => (⟨s.1, apex, s.2⟩ : Triangle Nat)).flatMap
      Triangle.edges).Nodup := by
  have hstarts : ((steps true ring).map Prod.fst).Nodup := by rwa [map_fst_steps_true]
  have hends := (map_snd_steps_true_perm ring).nodup_iff.2 hring
  rw [sides_eq_flip, (edges_flip_perm _).nodup_iff]
  exact (nodup_edges_joined hstarts hends hne).map Prod.swap_injective

/-- An apex that is joined to the border closes a dome. -/
theorem closed_apex (h : Dome ring ts) (hP : ∀ t ∈ ts, t.Over P) (hring : ring.Nodup)
    (hringP : ∀ x ∈ ring, P x) (hlong : 3 ≤ ring.length) {apex : Nat} (hapex : ¬P apex) :
    Closed (ts ++ (steps true ring).map fun s => ⟨s.1, apex, s.2⟩) := by
  have hne (s) (hs : s ∈ steps true ring) : s.1 ≠ s.2 ∧ s.1 ≠ apex ∧ s.2 ≠ apex := by
    obtain ⟨h₁, h₂⟩ := mem_of_mem_steps hs
    exact ⟨fst_ne_snd_of_mem_steps hring (by omega) hs, fun heq => hapex (heq ▸ hringP _ h₁),
      fun heq => hapex (heq ▸ hringP _ h₂)⟩
  refine closed_of_around ?_ (fun t ht => ?_) fun f hf => ?_
  · rw [List.flatMap_append, List.nodup_append']
    refine ⟨h.nodup, nodup_edges_sides hring fun s hs => (hne s hs).2, fun e he he' => ?_⟩
    -- Of a side only the edge at the border is between corners of the dome, and not in it.
    obtain ⟨hfst, hsnd⟩ := over_of_mem_edges hP he
    obtain ⟨t, ht, he'⟩ := List.mem_flatMap.1 he'
    obtain ⟨s, hs, rfl⟩ := List.mem_map.1 ht
    simp only [Triangle.edges, List.mem_cons, List.not_mem_nil, or_false] at he'
    rcases he' with rfl | rfl | rfl
    · exact hapex hsnd
    · exact hapex hfst
    · exact h.swap_not_mem hring hlong hs he
  · rcases List.mem_append.1 ht with ht | ht
    · exact h.corners t ht
    · obtain ⟨s, hs, rfl⟩ := List.mem_map.1 ht
      have hs := hne s hs
      simp only [Triangle.toList, List.nodup_cons, List.mem_cons, List.not_mem_nil]
      grind
  · -- The sides take back what flows around the border, and their edges at the apex cancel.
    rw [around_append, h.around_eq f hf, sides_eq_flip, around_flip hf, around_joined_eq hf]
    change along f true ring +
      -(along f true ring + along (fun x y => f y apex - f x apex) true ring) = 0
    rw [along_sub_eq_zero fun x => f x apex, add_zero, add_neg_cancel]

end Dome

/-! ## Shapes -/

/-- A well-formed mesh of a closed surface, with a number of vertices that are all used and a number
    of triangles. -/
structure Mesh.Solid {α : Type} (m : Mesh α) (vertices triangles : Nat) : Prop where
  wellFormed : m.WellFormed
  closed : Closed m.triangles
  exists_corner : ∀ i < m.vertexCount, ∃ t ∈ m.triangles, ∃ k ∈ t.toList, k.toNat = i
  vertexCount_eq : m.vertexCount = vertices
  triangleCount_eq : m.triangleCount = triangles

namespace Primitive

variable {ts : List (Triangle Nat)}

/-- The surface over rings of `n` places each, down to the last of them, with a cap at both ends. -/
def capped (n last : Nat) : List (Triangle Nat) :=
  fan (places n 0) ++ (List.range last).flatMap (fun i => skirt (places n i) (places n (i + 1)))
    ++ floor (places n last)

/-- A place of a ring in numbers. -/
theorem mem_places {n k i : Nat} : i ∈ places n k ↔ k * n ≤ i ∧ i < k * n + n := by
  rw [places, List.mem_range'_1]

/-- A ring has no place twice. -/
theorem nodup_places (n k : Nat) : (places n k).Nodup := List.nodup_range'

/-- A ring has `n` places. -/
theorem length_places (n k : Nat) : (places n k).length = n := List.length_range'

/-- The rings are disjoint. -/
theorem not_lt_of_mem_places {n k i : Nat} (hi : i ∈ places n (k + 1)) : ¬i < (k + 1) * n :=
  Nat.not_lt.2 (mem_places.1 hi).1

/-- From the upper cap on there is a dome over each ring. -/
theorem dome_rings {n : Nat} (h : 3 ≤ n) (k : Nat) :
    Dome (places n k) (fan (places n 0) ++
        (List.range k).flatMap fun i => skirt (places n i) (places n (i + 1))) ∧
      ∀ t ∈ fan (places n 0) ++
        (List.range k).flatMap fun i => skirt (places n i) (places n (i + 1)),
        t.Over (· < (k + 1) * n) := by
  induction k with
  | zero =>
    rw [List.range_zero, List.flatMap_nil, List.append_nil]
    refine ⟨dome_fan (nodup_places n 0) (by rw [length_places]; omega), fun t ht => ?_⟩
    exact over_of_mem_fan (fun i => lt_of_mem_places Nat.one_pos) ht
  | succ k ih =>
    obtain ⟨hdome, hover⟩ := ih
    rw [List.range_succ, List.flatMap_append, List.flatMap_singleton, ← List.append_assoc]
    constructor
    · refine hdome.skirt hover (nodup_places n k) (fun i => lt_of_mem_places k.lt_succ_self)
        (nodup_places n (k + 1)) (fun i => not_lt_of_mem_places) ?_ ?_
      · rw [length_places, length_places]
      · rwa [length_places]
    · intro t ht
      rcases List.mem_append.1 ht with ht | ht
      · refine (hover t ht).imp fun i hi => hi.trans_le ?_
        exact Nat.mul_le_mul_right n (Nat.le_succ _)
      · exact over_of_mem_skirt (fun i => lt_of_mem_places (by omega))
          (fun i => lt_of_mem_places (by omega)) ht

/-- The surface over rings is closed. -/
theorem closed_capped {n : Nat} (h : 3 ≤ n) (k : Nat) : Closed (capped n (k + 1)) := by
  obtain ⟨hdome, hover⟩ := dome_rings h k
  rw [capped, List.range_succ, List.flatMap_append, List.flatMap_singleton, ← List.append_assoc]
  refine hdome.closed_floor hover (nodup_places n k) (fun i => lt_of_mem_places k.lt_succ_self)
    (nodup_places n (k + 1)) (fun i => not_lt_of_mem_places) ?_ ?_
  · rw [length_places, length_places]
  · rwa [length_places]

/-- The surface over rings is over their places. -/
theorem over_of_mem_capped {n last : Nat} (h : 3 ≤ n) {t : Triangle Nat}
    (ht : t ∈ capped n last) : t.Over (· < (last + 1) * n) := by
  rcases List.mem_append.1 ht with ht | ht
  · exact (dome_rings h last).2 t ht
  · exact over_of_mem_floor (fun i => lt_of_mem_places last.lt_succ_self) ht

/-- All places are used by the surface over their rings. -/
theorem exists_mem_capped {n k i : Nat} (hi : i < (k + 2) * n) :
    ∃ t ∈ capped n (k + 1), i ∈ t.toList := by
  have hn : 0 < n := Nat.pos_of_ne_zero fun hn => by
    rw [hn, Nat.mul_zero] at hi
    omega
  have hplace : i ∈ places n (i / n) := by
    rw [mem_places, Nat.mul_comm]
    have hdiv := Nat.div_add_mod i n
    have hmod := Nat.mod_lt i hn
    omega
  have hring : i / n < k + 2 := (Nat.div_lt_iff_lt_mul hn).2 hi
  -- The last ring is only the lower one of a skirt.
  obtain ⟨j, hj, hplaces⟩ : ∃ j < k + 1, i ∈ places n j ∨ i ∈ places n (j + 1) := by
    rcases Nat.lt_or_ge (i / n) (k + 1) with hlt | hge
    · exact ⟨i / n, hlt, .inl hplace⟩
    · have hlast : i / n = k + 1 := by omega
      exact ⟨k, k.lt_succ_self, .inr (hlast ▸ hplace)⟩
  obtain ⟨t, ht, hmem⟩ := exists_mem_skirt
    ((length_places n j).trans (length_places n (j + 1)).symm) hplaces
  refine ⟨t, List.mem_append_left _ (List.mem_append_right _ ?_), hmem⟩
  exact List.mem_flatMap.2 ⟨j, List.mem_range.2 hj, ht⟩

/-- The surface over rings has two triangles for every place, but for four that the caps lack. -/
theorem length_capped {n : Nat} (h : 3 ≤ n) (last : Nat) :
    (capped n last).length = 2 * n * (last + 1) - 4 := by
  have hskirt (i : Nat) : (skirt (places n i) (places n (i + 1))).length = 2 * n := by
    rw [length_skirt ((length_places n i).trans (length_places n (i + 1)).symm), length_places]
  rw [capped, List.length_append, List.length_append, length_fan, floor, List.length_map,
    length_fan, List.length_flatMap, length_places, length_places]
  simp only [hskirt]
  rw [List.map_const', List.length_range, List.sum_replicate_nat, Nat.mul_succ, Nat.mul_comm last]
  omega

/-- A closed surface over the first `n` places, all of which it uses. -/
structure ClosedOver (n : Nat) (ts : List (Triangle Nat)) : Prop where
  closed : Closed ts
  corner_lt : ∀ t ∈ ts, t.Over (· < n)
  exists_mem : ∀ i < n, ∃ t ∈ ts, i ∈ t.toList

/-- The surface over rings is closed and uses all of their places. -/
theorem closedOver_capped {n : Nat} (h : 3 ≤ n) (k : Nat) :
    ClosedOver ((k + 2) * n) (capped n (k + 1)) :=
  ⟨closed_capped h k, fun _ => over_of_mem_capped h, fun _ => exists_mem_capped⟩

/-- It does not matter from which side a surface is seen and in which order its triangles come. -/
theorem ClosedOver.flip_perm {n : Nat} {us : List (Triangle Nat)} (h : ClosedOver n ts)
    (hperm : (ts.map Triangle.flip).Perm us) : ClosedOver n us where
  closed := h.closed.flip.perm hperm
  corner_lt t ht := by
    obtain ⟨u, hu, rfl⟩ := List.mem_map.1 (hperm.mem_iff.2 ht)
    exact Triangle.over_flip.2 (h.corner_lt u hu)
  exists_mem i hi := by
    obtain ⟨t, ht, hmem⟩ := h.exists_mem i hi
    refine ⟨t.flip, hperm.mem_iff.1 (List.mem_map_of_mem ht), ?_⟩
    exact (List.Perm.cons t.a (List.Perm.swap t.c t.b [])).mem_iff.1 hmem

variable {α : Type} {segments : UInt32}

/-- The mesh of a closed surface over the places of rings is solid, as long as there are indices for
    these. -/
theorem ClosedOver.solid {n : Nat} (h : ClosedOver n ts) (rings : List (List (Vec3 α)))
    (hn : rings.flatten.length = n) (hsize : n < UInt32.size) :
    (overRings rings ts).Solid n ts.length := by
  have hcount : (overRings rings ts).vertexCount = n := by
    rw [← hn]
    exact List.size_toArray
  have htoNat {i : Nat} (hi : i < n) : i.toUInt32.toNat = i :=
    Nat.mod_eq_of_lt (hi.trans hsize)
  refine ⟨wellFormed_overRings hn h.corner_lt, ?_, fun i hi => ?_, hcount, List.length_map _⟩
  · refine h.closed.map h.corner_lt fun x y hx hy heq => ?_
    rw [← htoNat hx, ← htoNat hy, heq]
  · obtain ⟨t, ht, hmem⟩ := h.exists_mem i (hcount ▸ hi)
    refine ⟨t.toIndices, List.mem_map_of_mem ht, i.toUInt32, ?_, htoNat (hcount ▸ hi)⟩
    exact List.mem_map_of_mem (f := Nat.toUInt32) hmem

variable [Scalar α]

/-- Cylinders are solid: seen from the other side, they are surfaces over two rings. -/
theorem solid_cylinder (h : 3 ≤ segments.toNat) (hsize : 2 * segments.toNat < UInt32.size) :
    ∃ m : Mesh α, cylinder segments = .ok m ∧
      m.Solid (2 * segments.toNat) (4 * segments.toNat - 4) := by
  have hmin : ¬segments.toNat < minSegments := Nat.not_lt.2 h
  refine ⟨_, by rw [cylinder, if_neg hmin], ?_⟩
  generalize segments.toNat = n at *
  have hperm : ((capped n 1).map Triangle.flip).Perm
      (band true (places n 0) (places n 1) ++ floor (places n 0) ++ fan (places n 1)) := by
    have hband := (skirt_perm (places n 0) (places n 1)).map Triangle.flip
    rw [Triangle.map_flip_map_flip] at hband
    rw [capped, List.map_append, List.map_append, List.range_one, List.flatMap_singleton, floor,
      floor, Triangle.map_flip_map_flip]
    exact List.Perm.append_right _ (List.perm_append_comm.trans (hband.append_right _))
  have hlength := length_capped h 1
  rw [← List.length_map (f := Triangle.flip), hperm.length_eq] at hlength
  have hcount : 4 * n - 4 = 2 * n * (1 + 1) - 4 := by omega
  rw [hcount, ← hlength]
  exact ((closedOver_capped h 0).flip_perm hperm).solid
    [ring n 0.5 (-0.5), ring n 0.5 0.5] (by simp [Nat.two_mul]) hsize

/-- Seen from the other side, a cone is a cap that an apex closes. -/
theorem closedOver_cone {n : Nat} (h : 3 ≤ n) : ClosedOver (n + 1)
    (fan (places n 0) ++ (steps true (places n 0)).map fun s => ⟨s.1, n, s.2⟩) := by
  have hlong : (places n 0).length = n := length_places n 0
  have hbase : ∀ i ∈ places n 0, i < n := fun i hi => by
    have := mem_places.1 hi
    omega
  refine ⟨?_, fun t ht => ?_, fun i hi => ?_⟩
  · exact (dome_fan (nodup_places n 0) (by omega)).closed_apex
      (fun t => over_of_mem_fan hbase) (nodup_places n 0) hbase (by omega) (Nat.lt_irrefl n)
  · rcases List.mem_append.1 ht with ht | ht
    · exact (over_of_mem_fan hbase ht).imp fun i hi => hi.trans n.lt_succ_self
    · obtain ⟨s, hs, rfl⟩ := List.mem_map.1 ht
      obtain ⟨h₁, h₂⟩ := mem_of_mem_steps hs
      exact ⟨(hbase _ h₁).trans n.lt_succ_self, n.lt_succ_self, (hbase _ h₂).trans n.lt_succ_self⟩
  · -- Every place of the base is where a step starts, at which there is a side.
    have hstart (j) (hj : j < n) : ∃ s ∈ steps true (places n 0), s.1 = j := by
      have hplace : j ∈ places n 0 := mem_places.2 (by omega)
      rw [← map_fst_steps_true (places n 0)] at hplace
      exact List.mem_map.1 hplace
    have hside : ∃ s ∈ steps true (places n 0), i = s.1 ∨ i = n := by
      rcases Nat.lt_succ_iff_lt_or_eq.1 hi with hi | rfl
      · obtain ⟨s, hs, rfl⟩ := hstart i hi
        exact ⟨s, hs, .inl rfl⟩
      · obtain ⟨s, hs, _⟩ := hstart 0 (by omega)
        exact ⟨s, hs, .inr rfl⟩
    obtain ⟨s, hs, hi⟩ := hside
    refine ⟨⟨s.1, n, s.2⟩, List.mem_append_right _ (List.mem_map_of_mem hs), ?_⟩
    rcases hi with rfl | rfl <;> simp [Triangle.toList]

/-- Cones are solid. -/
theorem solid_cone (h : 3 ≤ segments.toNat) (hsize : segments.toNat + 1 < UInt32.size) :
    ∃ m : Mesh α, cone segments = .ok m ∧
      m.Solid (segments.toNat + 1) (2 * segments.toNat - 2) := by
  have hmin : ¬segments.toNat < minSegments := Nat.not_lt.2 h
  refine ⟨_, by rw [cone, if_neg hmin], ?_⟩
  generalize segments.toNat = n at *
  have hlong : (places n 0).length = n := length_places n 0
  have hperm : ((fan (places n 0) ++ (steps true (places n 0)).map fun s =>
        (⟨s.1, n, s.2⟩ : Triangle Nat)).map Triangle.flip).Perm
      ((steps true (places n 0)).map (fun s => ⟨s.1, s.2, n⟩) ++ floor (places n 0)) := by
    rw [List.map_append, List.map_map, floor]
    exact List.perm_append_comm
  have hlength : ((steps true (places n 0)).map (fun s => (⟨s.1, s.2, n⟩ : Triangle Nat)) ++
      floor (places n 0)).length = 2 * n - 2 := by
    rw [List.length_append, List.length_map, length_steps_true, floor, List.length_map, length_fan]
    omega
  rw [← hlength]
  exact ((closedOver_cone h).flip_perm hperm).solid
    [ring n 0.5 (-0.5), [⟨0.0, 0.5, 0.0⟩]] (by simp) hsize

/-- The rings of a sphere are half as many as its segments, rounded up. -/
theorem ringCount_eq (h : segments.toNat + 1 < UInt32.size) :
    ringCount segments = .ok ((segments.toNat + 1) / 2) := by
  have hsum : checkedSum segments 1 = .ok (segments + 1) := if_pos h
  have htoNat := checkedSum_eq_ok_iff.1 hsum
  rw [ringCount, hsum]
  change Except.ok ((segments + 1).toNat / 2) = _
  rw [← htoNat]
  rfl

/-- Spheres are solid: they are surfaces over their rings. -/
theorem solid_sphere (h : 3 ≤ segments.toNat)
    (hsize : segments.toNat * ((segments.toNat + 1) / 2) < UInt32.size) :
    ∃ m : Mesh α, sphere segments = .ok (.ok m) ∧
      m.Solid (segments.toNat * ((segments.toNat + 1) / 2))
        (2 * segments.toNat * ((segments.toNat + 1) / 2) - 4) := by
  have hmin : ¬segments.toNat < minSegments := Nat.not_lt.2 h
  have htwo : 2 ≤ (segments.toNat + 1) / 2 := by omega
  have hle := Nat.mul_le_mul_left segments.toNat htwo
  refine ⟨sphereOver segments.toNat ((segments.toNat + 1) / 2), ?_, ?_⟩
  · rw [sphere, if_neg hmin, ringCount_eq (by omega)]
    rfl
  · generalize segments.toNat = n at *
    -- There are two rings at least, with a skirt between them.
    obtain ⟨k, hk⟩ := Nat.exists_eq_add_of_le' htwo
    rw [hk] at hsize ⊢
    have hlength := length_capped h (k + 1)
    rw [← hlength]
    rw [Nat.mul_comm n] at hsize ⊢
    exact (closedOver_capped h k).solid _ (length_sphereRings (α := α) n (k + 2)) hsize

/-- Cylinders, cones and spheres of three segments or more, whose vertices have indices, are closed
    surfaces and use all of their vertices. -/
theorem closed_round (segments : UInt32) (h : 3 ≤ segments.toNat) :
    (2 * segments.toNat < UInt32.size → ∃ m : Mesh α, cylinder segments = .ok m ∧
      m.Solid (2 * segments.toNat) (4 * segments.toNat - 4)) ∧
    (segments.toNat + 1 < UInt32.size → ∃ m : Mesh α, cone segments = .ok m ∧
      m.Solid (segments.toNat + 1) (2 * segments.toNat - 2)) ∧
    (segments.toNat * ((segments.toNat + 1) / 2) < UInt32.size →
      ∃ m : Mesh α, sphere segments = .ok (.ok m) ∧
        m.Solid (segments.toNat * ((segments.toNat + 1) / 2))
          (2 * segments.toNat * ((segments.toNat + 1) / 2) - 4)) :=
  ⟨solid_cylinder h, solid_cone h, solid_sphere h⟩

/-- The round shapes of the smallest odd number of segments in which a cap has a diagonal. -/
theorem closed_round_five :
    (∃ m : Mesh Float, cylinder 5 = .ok m ∧ m.Solid 10 16) ∧
      (∃ m : Mesh Float, cone 5 = .ok m ∧ m.Solid 6 8) ∧
      ∃ m : Mesh Float, sphere 5 = .ok (.ok m) ∧ m.Solid 15 26 := by
  obtain ⟨hcylinder, hcone, hsphere⟩ := closed_round (α := Float) 5 (by decide)
  exact ⟨hcylinder (by decide), hcone (by decide), hsphere (by decide)⟩

end Primitive

end Solids
