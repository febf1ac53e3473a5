import Mathlib
import Solids.Mesh.Basic
import Solids.Proofs.Mesh.Cutting

/-!
# Flows around surfaces

A flow says of every step from one element to another how much goes along it, and takes as much
away when the step is made backward (`Alternating`). It is summed over the steps of a sequence
(`along`) and over the edges of triangles (`around`).

Where two triangles meet, what flows along their common edge cancels, and only the border is left.
So a fan carries what flows around its ring (`around_fan`), a band the difference of what flows
around its two rings (`around_band`), and a ring from which an element is cut off loses the triangle
that is cut off with it (`along_eq_erase_add`).

A surface that carries nothing, whatever flows, has no border: every directed edge occurs as often
as its reverse (`count_swap_of_around`), and a mesh of which this is the surface is watertight
(`Mesh.Watertight`). Conversely nothing flows around a watertight mesh
(`Mesh.Watertight.around_eq_zero`).
-/

namespace Solids

variable {β γ G : Type} [AddCommGroup G] {f : β → β → G}

/-- The flow backward along a step takes away what the flow forward brings. -/
def Alternating (f : β → β → G) : Prop := ∀ x y, f x y + f y x = 0

/-- What flows along the steps of a sequence. -/
def along (f : β → β → G) (closed : Bool) (xs : List β) : G :=
  ((steps closed xs).map fun s => f s.1 s.2).sum

/-- What flows around triangles. -/
def around (f : β → β → G) (ts : List (Triangle β)) : G :=
  ((ts.flatMap Triangle.edges).map fun s => f s.1 s.2).sum

omit [AddCommGroup G] in
/-- A flow between images is one between the elements. -/
theorem Alternating.comp [AddCommGroup G] (hf : Alternating f) (g : γ → β) :
    Alternating fun x y => f (g x) (g y) :=
  fun x y => hf (g x) (g y)

/-- A flow backward is the opposite of that forward. -/
theorem Alternating.swap (hf : Alternating f) (x y : β) : f y x = -f x y :=
  eq_neg_of_add_eq_zero_right (hf x y)

/-! ## Along sequences -/

/-- A flow along the images of a sequence is a flow along the sequence. -/
theorem along_map (g : γ → β) (closed : Bool) (xs : List γ) :
    along f closed (xs.map g) = along (fun x y => f (g x) (g y)) closed xs := by
  rw [along, steps_map, List.map_map]
  rfl

/-- The first step of a way comes before the others. -/
theorem along_cons_cons (x y : β) (ys : List β) :
    along f false (x :: y :: ys) = f x y + along f false (y :: ys) :=
  List.sum_cons

/-- The last step of a way comes after the others. -/
theorem along_concat {xs : List β} (hxs : xs ≠ []) (y : β) :
    along f false (xs ++ [y]) = along f false xs + f (xs.getLast hxs) y := by
  rw [along, steps_false_concat hxs, List.map_append, List.sum_append, List.map_singleton,
    List.sum_singleton]
  rfl

/-- A closed sequence is the way from its first element back to it. -/
theorem along_true_cons (x : β) (xs : List β) :
    along f true (x :: xs) = along f false (x :: xs) + f ((x :: xs).getLast (by simp)) x := by
  rw [← along_concat, along, steps_true_cons]
  rfl

/-- It does not matter where a closed sequence starts. -/
theorem along_append_comm (xs ys : List β) : along f true (xs ++ ys) = along f true (ys ++ xs) := by
  rw [← List.rotate_append_length_eq xs ys, along, along, steps_true_rotate]
  exact ((List.rotate_perm _ _).map _).sum_eq.symm

/-- A way back takes away what the way there brings. -/
theorem along_false_reverse (hf : Alternating f) (xs : List β) :
    along f false xs.reverse = -along f false xs := by
  induction xs with
  | nil => exact neg_zero.symm
  | cons x xs ih =>
    cases xs with
    | nil => exact neg_zero.symm
    | cons y ys =>
      have hlast : (y :: ys).reverse.getLast (by simp) = y := by simp
      rw [List.reverse_cons, along_concat (by simp), hlast, ih, along_cons_cons, hf.swap, neg_add,
        add_comm]

/-- A closed sequence walked backward takes away what it brings walked forward. -/
theorem along_true_reverse (hf : Alternating f) (xs : List β) :
    along f true xs.reverse = -along f true xs := by
  cases xs with
  | nil => exact neg_zero.symm
  | cons x xs =>
    have hclosed : along f true (x :: xs) = along f false (x :: xs ++ [x]) := by
      rw [along_true_cons, along_concat]
    have hreverse : along f true (x :: xs.reverse) = along f false (x :: xs ++ [x]).reverse := by
      rw [along_true_cons, ← along_concat]
      simp
    rw [List.reverse_cons, along_append_comm, List.singleton_append, hreverse, hclosed,
      along_false_reverse hf]

/-! ## Around triangles -/

/-- What flows around a triangle. -/
theorem around_singleton (t : Triangle β) :
    around f [t] = f t.a t.b + f t.b t.c + f t.c t.a := by
  simp [around, Triangle.edges, add_assoc]

/-- What flows around some triangles and others flows around all of them. -/
theorem around_append (ts us : List (Triangle β)) :
    around f (ts ++ us) = around f ts + around f us := by
  simp [around]

/-- What flows around a triangle comes before what flows around the others. -/
theorem around_cons (t : Triangle β) (ts : List (Triangle β)) :
    around f (t :: ts) = around f [t] + around f ts :=
  around_append [t] ts

/-- It does not matter in which order the triangles come. -/
theorem around_perm {ts us : List (Triangle β)} (h : ts.Perm us) : around f ts = around f us :=
  ((h.flatMap_right Triangle.edges).map _).sum_eq

/-- What flows around triangles that come in groups flows around the groups. -/
theorem around_flatMap (g : γ → List (Triangle β)) (xs : List γ) :
    around f (xs.flatMap g) = (xs.map fun x => around f (g x)).sum := by
  induction xs with
  | nil => rfl
  | cons x xs ih => rw [List.flatMap_cons, around_append, ih, List.map_cons, List.sum_cons]

/-- A flow around the images of triangles is a flow around the triangles. -/
theorem around_map (g : γ → β) (ts : List (Triangle γ)) :
    around f (ts.map (.map g)) = around (fun x y => f (g x) (g y)) ts := by
  induction ts with
  | nil => rfl
  | cons t ts ih =>
    rw [List.map_cons, around_cons, ih, around_cons t, around_singleton, around_singleton]
    rfl

/-- Around triangles that are turned around the flow goes backward. -/
theorem around_flip (hf : Alternating f) (ts : List (Triangle β)) :
    around f (ts.map Triangle.flip) = -around f ts := by
  induction ts with
  | nil => exact neg_zero.symm
  | cons t ts ih =>
    have ht : around f [t.flip] = -around f [t] := by
      simp only [around_singleton, Triangle.flip, hf.swap t.a t.b, hf.swap t.b t.c,
        hf.swap t.c t.a]
      abel
    rw [List.map_cons, around_cons, ih, ht, around_cons t ts, neg_add]

/-- A fan carries what flows around its ring. -/
theorem around_fan (hf : Alternating f) {xs : List β} (h : 2 ≤ xs.length) :
    around f (fan xs) = along f true xs := by
  match xs, h with
  | [x, y], _ =>
    rw [along_true_cons, along_cons_cons]
    change 0 = f x y + 0 + f y x
    rw [add_zero, hf x y]
  | x :: y :: z :: zs, _ =>
    have ih : around f (fan (x :: z :: zs)) = along f true (x :: z :: zs) :=
      around_fan hf (by simp)
    have hfan : fan (x :: y :: z :: zs) = ⟨x, y, z⟩ :: fan (x :: z :: zs) := rfl
    have hlast : (x :: y :: z :: zs).getLast (by simp) = (x :: z :: zs).getLast (by simp) := by simp
    -- The first triangle goes along the two steps around `y` and back to `x`.
    rw [hfan, around_cons, ih, around_singleton, along_true_cons, along_true_cons, hlast,
      along_cons_cons, along_cons_cons, along_cons_cons, hf.swap x z]
    abel
termination_by xs.length

/-- The sum of differences is the difference of the sums. -/
theorem sum_map_sub (p q : γ → G) (xs : List γ) :
    (xs.map fun x => p x - q x).sum = (xs.map p).sum - (xs.map q).sum := by
  induction xs with
  | nil => exact (sub_self 0).symm
  | cons x xs ih =>
    rw [List.map_cons, List.sum_cons, ih, List.map_cons, List.sum_cons, List.map_cons,
      List.sum_cons, add_sub_add_comm]

/-- The flow that goes from one amount to another brings on a way what it ends with instead of what
    it starts with. -/
theorem along_sub (k : β → G) (x : β) (xs : List β) :
    along (fun x y => k y - k x) false (x :: xs) = k ((x :: xs).getLast (by simp)) - k x := by
  induction xs generalizing x with
  | nil => exact (sub_self _).symm
  | cons y ys ih =>
    rw [along_cons_cons, ih, List.getLast_cons (List.cons_ne_nil y ys), sub_add_sub_cancel']

/-- The flow that goes from one amount to another brings nothing around a closed sequence. -/
theorem along_sub_eq_zero (k : β → G) (xs : List β) : along (fun x y => k y - k x) true xs = 0 := by
  have hperm : ((steps true xs).map Prod.snd).Perm ((steps true xs).map Prod.fst) :=
    (map_snd_steps_true_perm xs).trans (.of_eq (map_fst_steps_true xs).symm)
  have hsum := (hperm.map k).sum_eq
  rw [List.map_map, List.map_map] at hsum
  rw [along, sum_map_sub]
  exact sub_eq_zero.2 hsum

/-- A band carries what flows around its first ring, and not what flows around the second. -/
theorem around_band (hf : Alternating f) {near far : List β} (h : near.length = far.length) :
    around f (band true near far) = along f true near - along f true far := by
  -- A square has a step of either ring, and the ways across at both of its ends.
  have hsquare (s t : β × β) : around f (fan [s.1, t.1, t.2, s.2]) =
      (f s.1 t.1 - f s.2 t.2) + (f t.1 t.2 - f s.1 s.2) := by
    rw [around_fan hf (by simp), along_true_cons, along_cons_cons, along_cons_cons,
      along_cons_cons]
    change _ + (_ + (_ + 0)) + f s.2 s.1 = _
    rw [hf.swap s.1 s.2, hf.swap s.2 t.2]
    abel
  have hband : around f (band true near far) =
      along (fun s t => around f (fan [s.1, t.1, t.2, s.2])) true (near.zip far) :=
    around_flatMap _ _
  have hacross := along_sub_eq_zero (fun s => f s.1 s.2) (near.zip far)
  have hnear := along_map (f := f) Prod.fst true (near.zip far)
  have hfar := along_map (f := f) Prod.snd true (near.zip far)
  rw [List.map_fst_zip h.le] at hnear
  rw [List.map_snd_zip h.ge] at hfar
  rw [hband, hnear, hfar]
  simp only [hsquare]
  simp only [along] at hacross ⊢
  rw [List.sum_map_add, hacross, add_zero, sum_map_sub]

/-! ## Cutting off an element -/

omit [AddCommGroup G] in
/-- A turn on the way from before a sequence to behind it is at an element, between the last of what
    comes before it and the first of what comes after. -/
theorem exists_append_of_mem_zip {p q : β} {xs : List β} {r : β × β × β}
    (hr : r ∈ (p :: xs).zip (xs.zip (xs.tail ++ [q]))) :
    ∃ before after, xs = before ++ r.2.1 :: after ∧
      r.1 = before.getLast?.getD p ∧ r.2.2 = after.head?.getD q := by
  induction xs generalizing p with
  | nil => cases hr
  | cons x xs ih =>
    cases xs with
    | nil =>
      obtain rfl := List.mem_singleton.1 hr
      exact ⟨[], [], rfl, rfl, rfl⟩
    | cons y ys =>
      rcases List.mem_cons.1 hr with rfl | hr
      · exact ⟨[], y :: ys, rfl, rfl, rfl⟩
      · obtain ⟨before, after, hxs, ha, hc⟩ := ih hr
        refine ⟨x :: before, after, congrArg (x :: ·) hxs, ?_, hc⟩
        rw [List.getLast?_cons, Option.getD_some]
        exact ha

omit [AddCommGroup G] in
/-- A turn of a closed sequence is at an element, between the last and the first of the others as
    they come after it. -/
theorem exists_append_of_mem_turns {xs : List β} {t : Triangle β} (ht : t ∈ turns xs) :
    ∃ before after, xs = before ++ t.b :: after ∧
      t.a = (after ++ before).getLast?.getD t.b ∧ t.c = (after ++ before).head?.getD t.b := by
  cases xs with
  | nil => cases ht
  | cons x xs =>
    obtain ⟨r, hr, rfl⟩ := List.mem_map.1 ht
    obtain ⟨before, after, hxs, ha, hc⟩ := exists_append_of_mem_zip hr
    refine ⟨before, after, hxs, ?_, ?_⟩
    · -- Without elements before it, the way comes from the last of those after it.
      rw [List.getLast?_append]
      have hlast : (x :: xs).getLast (List.cons_ne_nil x xs) =
          ((before ++ r.2.1 :: after).getLast?).getD x := by
        rw [← hxs, List.getLast?_eq_getLast_of_ne_nil (List.cons_ne_nil x xs), Option.getD_some]
      change r.1 = _
      rw [ha, hlast]
      cases before using List.reverseRecOn with
      | nil => simp [List.getLast?_cons]
      | append_singleton => simp
    · -- Without elements after it, the way goes on to the first of those before it.
      rw [List.head?_append]
      have hhead : x = (before ++ r.2.1 :: after).head?.getD x := by
        rw [← hxs, List.head?_cons, Option.getD_some]
      change r.2.2 = _
      rw [hc, hhead]
      cases after with
      | nil => cases before <;> simp
      | cons => simp

/-- A ring that loses an element loses what flows around the turn there. -/
theorem along_eq_erase_add [DecidableEq β] (hf : Alternating f) {ring : List β}
    (hnodup : ring.Nodup) {t : Triangle β} (ht : t ∈ turns ring) :
    along f true ring = along f true (ring.erase t.b) + around f [t] := by
  obtain ⟨before, after, rfl, ha, hc⟩ := exists_append_of_mem_turns ht
  have hmem : t.b ∉ before := fun hb =>
    List.disjoint_of_nodup_append hnodup hb List.mem_cons_self
  rw [List.erase_append_right _ hmem, List.erase_cons_head, along_append_comm,
    along_append_comm before, List.cons_append, around_singleton, ha, hc]
  -- The others come in order after the element now.
  generalize after ++ before = rest
  cases rest with
  | nil =>
    change f t.b t.b + 0 = 0 + (f t.b t.b + f t.b t.b + f t.b t.b)
    rw [hf t.b t.b, add_zero, zero_add, zero_add]
  | cons y ys =>
    have hlast : (y :: ys).getLast?.getD t.b = (y :: ys).getLast (List.cons_ne_nil y ys) := by
      rw [List.getLast?_eq_getLast_of_ne_nil (List.cons_ne_nil y ys), Option.getD_some]
    rw [along_true_cons, along_true_cons, along_cons_cons, hlast, List.head?_cons,
      Option.getD_some, List.getLast_cons (List.cons_ne_nil y ys), hf.swap _ y]
    abel

/-! ## Surfaces without a border -/

/-- An element is counted by adding up one for each occurrence, whichever test of equality the count
    goes by. -/
theorem sum_map_ite_eq_count [test : BEq γ] [LawfulBEq γ] [DecidableEq γ] (xs : List γ) (x : γ) :
    (xs.map fun y => if y = x then (1 : ℤ) else 0).sum = xs.count x := by
  rw [lawful_beq_subsingleton test instBEqOfDecidableEq, List.sum_map_ite_eq]
  simp

/-- If along some edges flows what flows along others, whatever flows, they have every directed edge
    more often than its reverse by one number. -/
theorem count_add_count_of_sum_eq [DecidableEq β] {es es' : List (β × β)}
    (h : ∀ f : β → β → ℤ, Alternating f →
      (es.map fun s => f s.1 s.2).sum = (es'.map fun s => f s.1 s.2).sum) (u v : β) :
    es.count (u, v) + es'.count (v, u) = es.count (v, u) + es'.count (u, v) := by
  -- The flow along one edge, forward and backward, counts how often it occurs.
  have hsum := h (fun x y => (if (x, y) = (u, v) then 1 else 0) - if (x, y) = (v, u) then 1 else 0)
    fun x y => by simp only [Prod.mk.injEq, and_comm (b := y = _)]; ring
  rw [sum_map_sub, sum_map_ite_eq_count, sum_map_ite_eq_count, sum_map_sub, sum_map_ite_eq_count,
    sum_map_ite_eq_count] at hsum
  omega

/-- If nothing flows around triangles, whatever flows, every directed edge occurs as often as its
    reverse. -/
theorem count_swap_of_around [DecidableEq β] {ts : List (Triangle β)}
    (h : ∀ f : β → β → ℤ, Alternating f → around f ts = 0) (u v : β) :
    (ts.flatMap Triangle.edges).count (u, v) = (ts.flatMap Triangle.edges).count (v, u) := by
  have hcount : _ + [].count (v, u) = _ + [].count (u, v) := count_add_count_of_sum_eq h u v
  exact hcount

namespace Mesh

/-- The directed edges of the triangles, in order. -/
def edges {α : Type} (m : Mesh α) : List (UInt32 × UInt32) := m.triangles.flatMap Triangle.edges

/-- Every directed edge occurs as often as its reverse, so that the surface has no border and all
    of it faces to one side. -/
def Watertight {α : Type} (m : Mesh α) : Prop := ∀ u v, m.edges.count (u, v) = m.edges.count (v, u)

/-- A mesh around which nothing flows, whatever flows, is watertight. -/
theorem watertight_of_around {α : Type} {m : Mesh α}
    (h : ∀ f : UInt32 → UInt32 → ℤ, Alternating f → around f m.triangles = 0) : m.Watertight :=
  count_swap_of_around h

/-- Around a watertight mesh nothing flows. -/
theorem Watertight.around_eq_zero {α : Type} {m : Mesh α} (h : m.Watertight)
    [IsAddTorsionFree G] {f : UInt32 → UInt32 → G} (hf : Alternating f) :
    around f m.triangles = 0 := by
  have hperm : m.edges.Perm (m.edges.map Prod.swap) := by
    refine List.perm_iff_count.2 fun e => ?_
    have hswap := List.count_map_of_injective m.edges Prod.swap Prod.swap_injective e.swap
    rw [Prod.swap_swap] at hswap
    rw [hswap]
    exact h e.1 e.2
  -- The flow along the reversed edges is the same, and the opposite.
  let flow (s : UInt32 × UInt32) : G := f s.1 s.2
  have hback : flow ∘ Prod.swap = Neg.neg ∘ flow := funext fun s => hf.swap s.1 s.2
  have hsum := (hperm.map flow).sum_eq
  rw [List.map_map, hback, ← List.map_map] at hsum
  exact self_eq_neg.1 (hsum.trans (List.sum_neg _).symm)

end Mesh

end Solids
