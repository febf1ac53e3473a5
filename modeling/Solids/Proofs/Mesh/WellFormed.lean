import Mathlib.Data.Fintype.Basic
import Mathlib.Data.List.Forall2
import Solids.Cycle
import Solids.Mesh.Basic

/-!
# Well-formed meshes

A mesh is well formed (`Mesh.WellFormed`) if its triangles name vertices that are there, and it has
no colors or one for each vertex. What reads through such a mesh finds everything, and what puts
such meshes together, moves or paints them makes such meshes (`Mesh.WellFormed.merge`,
`Mesh.WellFormed.transform`, `Mesh.WellFormed.paint`).

A triangle that a fan or a band consists of is over the elements of what that covers
(`over_of_mem_fan`, `over_of_mem_band`).

Even then an operation may fault, but only for the extent of what it is about (`Fault.OfExtent`):
counts that 32 bits do not hold, or a division of space that does not end. What is known of
operations that fault for nothing else is known by `Safe`.
-/

namespace Solids

/-! ## Computations that fault for extent only -/

/-- The fault is about how much there is, and not about an index that points nowhere. -/
def Fault.OfExtent : Fault → Prop
  | .overflow i j => UInt32.size ≤ i.toNat + j.toNat
  | .endlessDivision => True
  | _ => False

section Safe

variable {β γ : Type} {P : β → Prop} {Q : γ → Prop}

/-- Something holds of the result, and if there is none that is for the extent of what was asked. -/
def Safe (r : Except Fault β) (P : β → Prop) : Prop :=
  match r with
  | .ok x => P x
  | .error e => e.OfExtent

/-- What follows from what holds of a result holds of it. -/
theorem Safe.imp {P' : β → Prop} {r : Except Fault β} (h : Safe r P) (hP : ∀ x, P x → P' x) :
    Safe r P' := by
  cases r with
  | ok x => exact hP x h
  | error e => exact h

/-- A computation goes on from what holds of the result of another. -/
theorem Safe.bind {r : Except Fault β} {f : β → Except Fault γ} (h : Safe r P)
    (hf : ∀ x, P x → Safe (f x) Q) : Safe (r >>= f) Q := by
  cases r with
  | ok x => exact hf x h
  | error e => exact h

/-- What holds of the image of a result holds of that of a computation. -/
theorem Safe.map {r : Except Fault β} {f : β → γ} (h : Safe r P) (hf : ∀ x, P x → Q (f x)) :
    Safe (f <$> r) Q := by
  cases r with
  | ok x => exact hf x h
  | error e => exact h

/-- What is found for every element of a list is found for all of them. -/
theorem Safe.mapM {f : β → Except Fault γ} {xs : List β} (h : ∀ x ∈ xs, Safe (f x) Q) :
    Safe (xs.mapM f) fun ys => ∀ y ∈ ys, Q y := by
  induction xs with
  | nil => exact fun _ hy => absurd hy List.not_mem_nil
  | cons x xs ih =>
    obtain ⟨hx, hxs⟩ := List.forall_mem_cons.1 h
    rw [List.mapM_cons]
    exact hx.bind fun y hy => (ih hxs).bind fun ys hys => List.forall_mem_cons.2 ⟨hy, hys⟩

/-- What every step keeps is kept along a list. -/
theorem Safe.foldlM {f : β → γ → Except Fault β} {x : β} {ys : List γ} (hx : P x)
    (h : ∀ x, P x → ∀ y ∈ ys, Safe (f x y) P) : Safe (ys.foldlM f x) P := by
  induction ys generalizing x with
  | nil => exact hx
  | cons y ys ih =>
    rw [List.foldlM_cons]
    exact (h x hx y List.mem_cons_self).bind fun x' hx' =>
      ih hx' fun x hx z hz => h x hx z (List.mem_cons_of_mem y hz)

end Safe

/-- A checked sum is the sum of the numbers, or there is none for 32 bits. -/
theorem safe_checkedSum (i j : UInt32) :
    Safe (checkedSum i j) fun k => k.toNat = i.toNat + j.toNat := by
  cases hsum : checkedSum i j with
  | ok k => exact (checkedSum_eq_ok_iff.1 hsum).symm
  | error e =>
    unfold checkedSum at hsum
    split at hsum
    · cases hsum
    · next hsize =>
      cases hsum
      exact Nat.le_of_not_lt hsize

/-- A place has an index that is no greater. -/
theorem toNat_toUInt32_le (n : Nat) : n.toUInt32.toNat ≤ n :=
  Nat.mod_le n UInt32.size

/-! ## Triangles -/

namespace Triangle

variable {β γ : Type} {P Q : β → Prop} {t : Triangle β}

/-- All corners are as `P` says. -/
def Over (P : β → Prop) (t : Triangle β) : Prop := P t.a ∧ P t.b ∧ P t.c

instance [DecidablePred P] : Decidable (t.Over P) :=
  inferInstanceAs (Decidable (P t.a ∧ P t.b ∧ P t.c))

/-- What holds of all corners holds of each. -/
theorem over_iff : t.Over P ↔ ∀ x ∈ t.toList, P x := by
  simp [Over, toList]

/-- What follows from what holds of the corners holds of them. -/
theorem Over.imp (h : t.Over P) (hP : ∀ x, P x → Q x) : t.Over Q :=
  ⟨hP _ h.1, hP _ h.2.1, hP _ h.2.2⟩

/-- A triangle that is turned around has the same corners. -/
@[simp] theorem over_flip : t.flip.Over P ↔ t.Over P := by
  simp only [Over, flip, and_comm]

/-- What holds of the corners of an image holds of the images. -/
@[simp] theorem over_map {f : β → γ} {R : γ → Prop} :
    (t.map f).Over R ↔ t.Over fun x => R (f x) := Iff.rfl

/-- What is found for every corner is found for the triangle. -/
theorem safe_mapM {f : β → Except Fault γ} {R : γ → Prop} (h : t.Over fun x => Safe (f x) R) :
    Safe (t.mapM f) (Over R) :=
  h.1.bind fun _ ha => h.2.1.bind fun _ hb => h.2.2.bind fun _ hc => ⟨ha, hb, hc⟩

/-- A triangle over the first `n` places of a list names indices below `n`. -/
theorem over_toIndices {t : Triangle Nat} {n : Nat} (h : t.Over (· < n)) :
    t.toIndices.Over fun i => i.toNat < n :=
  h.imp fun i hi => Nat.lt_of_le_of_lt (toNat_toUInt32_le i) hi

end Triangle

/-! ## Fans and bands -/

section Walks

variable {β : Type} {P : β → Prop} {xs near far : List β} {t : Triangle β}

/-- The triangles of a fan are over the elements of its ring. -/
theorem over_of_mem_fan (hxs : ∀ x ∈ xs, P x) (ht : t ∈ fan xs) : t.Over P := by
  cases xs with
  | nil => cases ht
  | cons x xs =>
    obtain ⟨hx, hxs⟩ := List.forall_mem_cons.1 hxs
    obtain ⟨s, hs, rfl⟩ := List.mem_map.1 ht
    obtain ⟨h₁, h₂⟩ := mem_of_mem_steps hs
    exact ⟨hx, hxs _ h₁, hxs _ h₂⟩

/-- The corners of a square between two rings are elements of the rings. -/
theorem forall_mem_square {closed : Bool} (hnear : ∀ x ∈ near, P x) (hfar : ∀ x ∈ far, P x)
    {s : (β × β) × (β × β)} (hs : s ∈ steps closed (near.zip far)) :
    (P s.1.1 ∧ P s.1.2) ∧ P s.2.1 ∧ P s.2.2 := by
  obtain ⟨h₁, h₂⟩ := mem_of_mem_steps hs
  exact ⟨⟨hnear _ (List.of_mem_zip h₁).1, hfar _ (List.of_mem_zip h₁).2⟩,
    hnear _ (List.of_mem_zip h₂).1, hfar _ (List.of_mem_zip h₂).2⟩

/-- The triangles of a band are over the elements of its two rings. -/
theorem over_of_mem_band {closed : Bool} (hnear : ∀ x ∈ near, P x) (hfar : ∀ x ∈ far, P x)
    (ht : t ∈ band closed near far) : t.Over P := by
  obtain ⟨s, hs, ht⟩ := List.mem_flatMap.1 ht
  obtain ⟨⟨hp, hp'⟩, hq, hq'⟩ := forall_mem_square hnear hfar hs
  refine over_of_mem_fan ?_ ht
  simp only [List.forall_mem_cons]
  exact ⟨hp, hq, hq', hp', fun _ h => absurd h List.not_mem_nil⟩

end Walks

/-! ## Meshes -/

namespace Mesh

variable {α : Type}

/-- The triangles name vertices that are there, and there are no colors or one for each vertex. -/
structure WellFormed (m : Mesh α) : Prop where
  corner_lt : ∀ t ∈ m.triangles, t.Over fun i => i.toNat < m.vertices.size
  size_colors : ∀ colors, m.colors = some colors → colors.size = m.vertices.size

instance (m : Mesh α) : Decidable m.WellFormed :=
  decidable_of_iff ((∀ t ∈ m.triangles, t.Over fun i => i.toNat < m.vertices.size) ∧
      ∀ colors ∈ m.colors, colors.size = m.vertices.size)
    ⟨fun h => ⟨h.1, h.2⟩, fun h => ⟨h.corner_lt, h.size_colors⟩⟩

variable {m n : Mesh α}

/-- The mesh without vertices is well formed. -/
theorem wellFormed_empty : (empty : Mesh α).WellFormed :=
  ⟨fun _ ht => absurd ht List.not_mem_nil, fun _ h => by cases h⟩

/-- An unpainted mesh over places of its vertices is well formed. -/
theorem wellFormed_ofPlaces {vertices : Array (Vec3 α)} {ts : List (Triangle Nat)}
    (h : ∀ t ∈ ts, t.Over (· < vertices.size)) :
    WellFormed { vertices, triangles := ts.map .toIndices } where
  corner_lt := List.forall_mem_map.2 fun t ht => Triangle.over_toIndices (h t ht)
  size_colors _ hcolors := by cases hcolors

namespace WellFormed

/-! ## Reading -/

/-- The corners of a triangle are found. -/
theorem corners (h : m.WellFormed) {t : Triangle UInt32} (ht : t ∈ m.triangles) :
    Safe (m.corners t) fun _ => True := by
  refine (Triangle.safe_mapM (R := fun _ => True) ((h.corner_lt t ht).imp fun i hi => ?_)).imp
    fun _ _ => trivial
  rw [vertex, Array.getElem?_eq_getElem hi]
  trivial

/-- The color of a corner is found. -/
theorem vertexColor (h : m.WellFormed) {i : UInt32} (hi : i.toNat < m.vertices.size) :
    Safe (m.vertexColor i) fun _ => True := by
  rw [Mesh.vertexColor]
  split
  · trivial
  · next colors hcolors =>
    rw [Array.getElem?_eq_getElem (h.size_colors colors hcolors ▸ hi)]
    trivial

/-! ## Changing -/

/-- A mesh turned inside out is as well formed as it was. -/
theorem flip (h : m.WellFormed) : m.flip.WellFormed :=
  ⟨List.forall_mem_map.2 fun t ht => Triangle.over_flip.2 (h.corner_lt t ht), h.size_colors⟩

/-- A mesh painted in one color is well formed. -/
theorem paint (h : m.WellFormed) (c : Rgba) : (m.paint c).WellFormed := by
  refine ⟨h.corner_lt, fun colors hcolors => ?_⟩
  cases hcolors
  exact Array.size_replicate

/-- A mesh with as many other vertices is as well formed as it was. -/
theorem withVertices (h : m.WellFormed) {vertices : Array (Vec3 α)}
    (hsize : vertices.size = m.vertices.size) : WellFormed { m with vertices } :=
  ⟨fun t ht => (h.corner_lt t ht).imp fun _ hi => hsize ▸ hi,
    fun colors hcolors => (h.size_colors colors hcolors).trans hsize.symm⟩

/-- A mesh that is moved stays well formed. -/
theorem transform [Scalar α] (h : m.WellFormed) (matrix : Matrix α) :
    (m.transform matrix).WellFormed := by
  have hmoved : WellFormed { m with vertices := m.vertices.map matrix.apply } :=
    h.withVertices Array.size_map
  rw [Mesh.transform]
  split
  · exact hmoved.flip
  · exact hmoved

/-! ## Merging -/

/-- A color list brought to a length has it. -/
theorem size_fitColors (colors : Array Rgba) (n : Nat) : (fitColors colors n).size = n := by
  simp only [fitColors, Array.size_append, Array.take_eq_extract, Array.size_extract,
    Array.size_replicate]
  omega

/-- The colors of two meshes put together are none, or one for each vertex of either. -/
theorem size_mergedColors (hm : m.WellFormed) (hn : n.WellFormed) {colors : Array Rgba}
    (h : mergedColors m n = some colors) :
    colors.size = m.vertices.size + n.vertices.size := by
  unfold mergedColors at h
  split at h
  · cases h
  · next own _ _ =>
    cases h
    exact size_fitColors own _
  · next theirs _ htheirs =>
    cases h
    rw [Array.size_append, Array.size_replicate, hn.size_colors theirs htheirs]
  · next own theirs hown htheirs =>
    cases h
    rw [Array.size_append, hm.size_colors own hown, hn.size_colors theirs htheirs]

/-- Two meshes are put together, unless an index grows too great. -/
theorem merge (hm : m.WellFormed) (hn : n.WellFormed) : Safe (m.merge n) WellFormed := by
  have hshift : ∀ t ∈ n.triangles, Safe (shifted m.nextIndex t)
      (Triangle.Over fun i => i.toNat < m.vertices.size + n.vertices.size) := by
    refine fun t ht => Triangle.safe_mapM ((hn.corner_lt t ht).imp fun i hi => ?_)
    refine (safe_checkedSum i m.nextIndex).imp fun k hk => ?_
    have hnext : m.nextIndex.toNat ≤ m.vertices.size := toNat_toUInt32_le _
    omega
  refine (Safe.mapM hshift).bind fun moved hmoved => ⟨?_, fun colors hcolors => ?_⟩
  · rw [Array.size_append]
    refine List.forall_mem_append.2 ⟨fun t ht => ?_, hmoved⟩
    exact (hm.corner_lt t ht).imp fun i hi => Nat.lt_add_right _ hi
  · rw [Array.size_append]
    exact hm.size_mergedColors hn hcolors

/-- Meshes are put together, unless an index grows too great. -/
theorem mergeAll {ms : List (Mesh α)} (h : ∀ m ∈ ms, m.WellFormed) :
    Safe (mergeAll ms) WellFormed :=
  .foldlM wellFormed_empty fun _ hm n hn => hm.merge (h n hn)

end WellFormed

end Mesh

end Solids
