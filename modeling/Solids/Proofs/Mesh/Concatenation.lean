import Mathlib.Algebra.GroupWithZero.Nat
import Solids.Proofs.Build.Frame
import Solids.Proofs.Mesh.WellFormed

/-!
# Meshes in a row

Meshes put one after another make one mesh (`Mesh.concat`): all vertices in order, the triangles of
each moved up by the vertices before it, and colors as soon as one of them is painted, where those
that are not count as unpainted.

This is what merging comes to (`Mesh.merge_outcome`), however the meshes are grouped
(`Mesh.concat_concat`): merging well-formed meshes makes the row of them, and faults only if they
have more than 2³² vertices together.
-/

namespace Solids.Mesh

variable {α : Type}

/-! ## Lists in a row -/

/-- What is put down for an element comes after all that is put down for those before it. -/
theorem getElem?_flatMap_of_le {β γ : Type} (f : β → List γ) (before : List β) (x : β)
    (after : List β) {i : Nat} (hlow : (before.flatMap f).length ≤ i)
    (hhigh : i < (before.flatMap f).length + (f x).length) :
    ((before ++ x :: after).flatMap f)[i]? = (f x)[i - (before.flatMap f).length]? := by
  rw [List.flatMap_append, List.flatMap_cons, List.getElem?_append_right hlow,
    List.getElem?_append_left (by omega)]

/-- What is put down for an element is found after the `k` places of those before it. -/
theorem getElem?_flatMap_add {β γ : Type} (f : β → List γ) {before : List β} {x : β}
    (after : List β) {k i : Nat} (hk : (before.flatMap f).length = k) (hi : i < (f x).length) :
    ((before ++ x :: after).flatMap f)[k + i]? = (f x)[i]? := by
  subst hk
  rw [getElem?_flatMap_of_le f before x after (Nat.le_add_right _ i) (Nat.add_lt_add_left hi _),
    Nat.add_sub_cancel_left]

/-! ## Rows -/

/-- The number of vertices of meshes. -/
def vertexTotal (ms : List (Mesh α)) : Nat := (ms.map vertexCount).sum

/-- The index of a vertex that moved up by `base` places. -/
def indexAfter (base : Nat) (i : UInt32) : UInt32 := (i.toNat + base).toUInt32

/-- The triangles of meshes in a row, whose vertices start at `base`. -/
def trianglesFrom (base : Nat) : List (Mesh α) → List (Triangle UInt32)
  | [] => []
  | m :: ms => m.triangles.map (.map (indexAfter base)) ++ trianglesFrom (base + m.vertexCount) ms

/-- The colors of the vertices, where those of a mesh that nobody painted are unpainted. -/
def shownColors (m : Mesh α) : Array Rgba :=
  m.colors.getD (Array.replicate m.vertexCount .unpainted)

/-- Meshes one after another as one mesh. -/
def concat (ms : List (Mesh α)) : Mesh α where
  vertices := (ms.flatMap (·.vertices.toList)).toArray
  triangles := trianglesFrom 0 ms
  colors := if ms.any isPainted then some (ms.flatMap (·.shownColors.toList)).toArray else none

/-- The vertices of a row are those of the first mesh and of the others. -/
theorem vertexTotal_cons (m : Mesh α) (ms : List (Mesh α)) :
    vertexTotal (m :: ms) = m.vertexCount + vertexTotal ms :=
  List.sum_cons

/-- The vertices of two rows are those of both. -/
theorem vertexTotal_append (ms ns : List (Mesh α)) :
    vertexTotal (ms ++ ns) = vertexTotal ms + vertexTotal ns := by
  rw [vertexTotal, List.map_append, List.sum_append]
  rfl

/-- A row has the vertices of its meshes. -/
@[simp] theorem vertexCount_concat (ms : List (Mesh α)) :
    (concat ms).vertexCount = vertexTotal ms := by
  rw [vertexCount, concat, List.size_toArray, List.length_flatMap]
  rfl

/-- A row has the triangles of its meshes. -/
theorem triangleCount_concat (ms : List (Mesh α)) :
    (concat ms).triangleCount = (ms.map triangleCount).sum := by
  have hfrom (base : Nat) : (trianglesFrom base ms).length = (ms.map triangleCount).sum := by
    induction ms generalizing base with
    | nil => rfl
    | cons m ms ih =>
      rw [trianglesFrom, List.length_append, List.length_map, ih]
      rfl
  exact hfrom 0

/-! ## Indices -/

/-- To move up by no place changes nothing. -/
@[simp] theorem indexAfter_zero (i : UInt32) : indexAfter 0 i = i := by
  rw [indexAfter, Nat.add_zero]
  exact UInt32.ofNat_toNat

/-- To move up twice is to move up by the sum. -/
theorem indexAfter_indexAfter (a b : Nat) (i : UInt32) :
    indexAfter a (indexAfter b i) = indexAfter (b + a) i := by
  have hmod (k : Nat) : k.toUInt32.toNat = k % UInt32.size := rfl
  rw [indexAfter, indexAfter, indexAfter, ← UInt32.toNat_inj, hmod, hmod, hmod, Nat.mod_add_mod,
    Nat.add_assoc]

/-- An index that 32 bits hold moves up by its base. -/
theorem toNat_indexAfter {base : Nat} {i : UInt32} (h : base + i.toNat < UInt32.size) :
    (indexAfter base i).toNat = base + i.toNat := by
  rw [indexAfter, Nat.add_comm]
  exact Nat.mod_eq_of_lt h

/-- The triangles of a row that starts further up are moved up by as much. -/
theorem trianglesFrom_add (a b : Nat) (ms : List (Mesh α)) :
    trianglesFrom (b + a) ms = (trianglesFrom b ms).map (.map (indexAfter a)) := by
  induction ms generalizing b with
  | nil => rfl
  | cons m ms ih =>
    have hhead : (Triangle.map (indexAfter (b + a)) : Triangle UInt32 → Triangle UInt32) =
        Triangle.map (indexAfter a) ∘ Triangle.map (indexAfter b) := by
      funext t
      simp only [Function.comp_apply, Triangle.map, indexAfter_indexAfter]
    rw [trianglesFrom, trianglesFrom, List.map_append, List.map_map, Nat.add_right_comm, ih, hhead]

/-- The triangles of two rows, the second after the vertices of the first. -/
theorem trianglesFrom_append (base : Nat) (ms ns : List (Mesh α)) :
    trianglesFrom base (ms ++ ns) =
      trianglesFrom base ms ++ trianglesFrom (base + vertexTotal ms) ns := by
  induction ms generalizing base with
  | nil => rfl
  | cons m ms ih =>
    rw [List.cons_append, trianglesFrom, trianglesFrom, ih, List.append_assoc, Nat.add_assoc]
    rfl

/-- The triangles of the first mesh in a row stay as they are. -/
theorem trianglesFrom_zero_cons (m : Mesh α) (ms : List (Mesh α)) :
    trianglesFrom 0 (m :: ms) = m.triangles ++ trianglesFrom m.vertexCount ms := by
  have hid : (Triangle.map (indexAfter 0) : Triangle UInt32 → Triangle UInt32) = id := by
    funext t
    simp only [Triangle.map, indexAfter_zero, id]
  rw [trianglesFrom, hid, List.map_id, Nat.zero_add]

/-! ## Rows of rows -/

/-- A row of one mesh is the mesh. -/
@[simp] theorem concat_singleton (m : Mesh α) : concat [m] = m := by
  have htriangles : trianglesFrom 0 [m] = m.triangles :=
    (trianglesFrom_zero_cons m []).trans (List.append_nil _)
  obtain ⟨vertices, triangles, colors⟩ := m
  rw [concat, htriangles]
  cases colors <;> simp [isPainted, shownColors]

/-- The mesh without vertices adds nothing in front of a row. -/
theorem concat_empty_cons (ms : List (Mesh α)) : concat (empty :: ms) = concat ms := by
  have htriangles : trianglesFrom 0 (empty :: ms) = trianglesFrom 0 ms :=
    (trianglesFrom_zero_cons empty ms).trans (List.nil_append _)
  rw [concat, htriangles]
  simp [concat, empty, isPainted, shownColors, vertexCount]

/-- A row has a color for every vertex, if its meshes are well formed or not. -/
theorem shownColors_concat (ms : List (Mesh α)) :
    (concat ms).shownColors = (ms.flatMap (·.shownColors.toList)).toArray := by
  rw [shownColors, vertexCount_concat]
  by_cases hpainted : ms.any isPainted = true
  · simp only [concat, if_pos hpainted, Option.getD_some]
  · simp only [concat, if_neg hpainted, Option.getD_none]
    have hall : ∀ m ∈ ms, m.shownColors = Array.replicate m.vertexCount .unpainted := by
      intro m hm
      cases hcolors : m.colors with
      | none => rw [shownColors, hcolors, Option.getD_none]
      | some colors =>
        refine absurd (List.any_eq_true.2 ⟨m, hm, ?_⟩) hpainted
        rw [isPainted, hcolors, Option.isSome_some]
    have hlist : ms.flatMap (·.shownColors.toList) =
        List.replicate (vertexTotal ms) .unpainted := by
      clear hpainted
      induction ms with
      | nil => rfl
      | cons m ms ih =>
        obtain ⟨hm, hms⟩ := List.forall_mem_cons.1 hall
        rw [List.flatMap_cons, ih hms, hm, Array.toList_replicate, List.replicate_append_replicate]
        rfl
    rw [hlist, List.toArray_replicate]

/-- Two rows in a row are one. -/
theorem concat_concat (ms ns : List (Mesh α)) :
    concat [concat ms, concat ns] = concat (ms ++ ns) := by
  -- Indices that move up twice move up by the sum, also where 32 bits do not hold it.
  have htriangles : trianglesFrom 0 [concat ms, concat ns] = trianglesFrom 0 (ms ++ ns) := by
    have hrow (ms : List (Mesh α)) : trianglesFrom 0 [concat ms] = trianglesFrom 0 ms :=
      congrArg triangles (concat_singleton (concat ms))
    have htotal : vertexTotal [concat ms] = vertexTotal ms := by simp [vertexTotal]
    rw [← List.singleton_append, trianglesFrom_append, trianglesFrom_append, hrow, htotal,
      trianglesFrom_add, hrow, ← trianglesFrom_add]
  have hpainted (ms : List (Mesh α)) : (concat ms).isPainted = ms.any isPainted := by
    rw [isPainted, concat]
    split <;> simp_all
  rw [concat, htriangles]
  simp only [List.flatMap_cons, List.flatMap_nil, List.append_nil, shownColors_concat,
    List.any_cons, List.any_nil, Bool.or_false, hpainted]
  simp [concat]

/-! ## Well-formed rows -/

/-- A well-formed mesh shows a color for every vertex. -/
theorem WellFormed.size_shownColors {m : Mesh α} (h : m.WellFormed) :
    m.shownColors.size = m.vertexCount := by
  cases hcolors : m.colors with
  | none => simp [shownColors, hcolors]
  | some own => simpa [shownColors, hcolors, vertexCount] using h.size_colors own hcolors

/-- A vertex of a well-formed mesh has the color that the mesh shows for it. -/
theorem WellFormed.exists_vertexColor_eq {m : Mesh α} (h : m.WellFormed) {i : UInt32}
    (hi : i.toNat < m.vertexCount) :
    ∃ c, m.shownColors[i.toNat]? = some c ∧ m.vertexColor i = .ok c := by
  rw [shownColors, Mesh.vertexColor]
  cases hcolors : m.colors with
  | none =>
    rw [Option.getD_none, Array.getElem?_replicate, if_pos hi]
    exact ⟨_, rfl, rfl⟩
  | some colors =>
    have hlt : i.toNat < colors.size := (h.size_colors colors hcolors).symm ▸ hi
    dsimp only [Option.getD_some]
    rw [Array.getElem?_eq_getElem hlt]
    exact ⟨_, rfl, rfl⟩

section WellFormed

variable {ms : List (Mesh α)} (h : ∀ m ∈ ms, m.WellFormed)
include h

/-- The triangles of a row of well-formed meshes are over its vertices. -/
theorem over_of_mem_trianglesFrom {base : Nat} {t : Triangle UInt32}
    (ht : t ∈ trianglesFrom base ms) : t.Over fun i => i.toNat < base + vertexTotal ms := by
  induction ms generalizing base with
  | nil => cases ht
  | cons m ms ih =>
    obtain ⟨hm, hms⟩ := List.forall_mem_cons.1 h
    rw [vertexTotal_cons, ← Nat.add_assoc]
    rcases List.mem_append.1 ht with ht | ht
    · obtain ⟨s, hs, rfl⟩ := List.mem_map.1 ht
      refine Triangle.over_map.2 ((hm.corner_lt s hs).imp fun i hi => ?_)
      -- An index that no longer fits starts again from zero, and so does not grow.
      have hle : (indexAfter base i).toNat ≤ i.toNat + base := toNat_toUInt32_le _
      change i.toNat < m.vertexCount at hi
      omega
    · exact ih hms ht

/-- A row of well-formed meshes shows a color for every vertex. -/
theorem length_flatMap_shownColors :
    (ms.flatMap (·.shownColors.toList)).length = vertexTotal ms := by
  rw [List.length_flatMap, vertexTotal]
  exact congrArg List.sum (List.map_congr_left fun m hm => (h m hm).size_shownColors)

/-- A row of well-formed meshes is well formed. -/
theorem wellFormed_concat : (concat ms).WellFormed where
  corner_lt t ht := by
    have hover := over_of_mem_trianglesFrom h ht
    rwa [Nat.zero_add, ← vertexCount_concat] at hover
  size_colors colors hcolors := by
    unfold concat at hcolors
    dsimp only at hcolors
    split at hcolors
    · cases hcolors
      exact (length_flatMap_shownColors h).trans (vertexCount_concat ms).symm
    · cases hcolors

end WellFormed

/-! ## Merging -/

section Outcome

variable {β γ : Type} {fault : Prop} {f : β → Except Fault γ} {g : β → γ}

/-- The triangle of what is found for the corners is found if each is. -/
theorem outcome_triangle_mapM {t : Triangle β} (h : t.Over fun x => Outcome (f x) fault (· = g x)) :
    Outcome (t.mapM f) fault (· = t.map g) := by
  refine h.1.bind id fun a ha => h.2.1.bind id fun b hb => h.2.2.bind id fun c hc => ?_
  rw [ha, hb, hc]
  rfl

/-- The list of what is found for the elements is found if each is. -/
theorem outcome_list_mapM {xs : List β} (h : ∀ x ∈ xs, Outcome (f x) fault (· = g x)) :
    Outcome (xs.mapM f) fault (· = xs.map g) := by
  induction xs with
  | nil => exact rfl
  | cons x xs ih =>
    obtain ⟨hx, hxs⟩ := List.forall_mem_cons.1 h
    rw [List.mapM_cons]
    refine hx.bind id fun y hy => (ih hxs).bind id fun ys hys => ?_
    rw [hy, hys]
    rfl

end Outcome

variable {m n : Mesh α}

/-- An index among `k` vertices is moved up by the vertices of a mesh, unless that and `k` others
    are more vertices than there are indices. -/
theorem checkedSum_outcome {i : UInt32} {k : Nat} (hi : i.toNat < k) :
    Outcome (checkedSum i m.nextIndex) (UInt32.size < m.vertexCount + k)
      (· = indexAfter m.vertexCount i) := by
  have hnext : m.nextIndex.toNat = m.vertexCount % UInt32.size := rfl
  unfold checkedSum
  split
  · have hafter : (indexAfter m.vertexCount i).toNat =
        (i.toNat + m.vertexCount) % UInt32.size := rfl
    change i + m.nextIndex = indexAfter m.vertexCount i
    rw [← UInt32.toNat_inj, UInt32.toNat_add, hnext, hafter]
    exact Nat.add_mod_mod _ _ _
  · next hover =>
    -- The sum does not fit, and neither part is more than the number that it stands for.
    have hle := Nat.mod_le m.vertexCount UInt32.size
    change UInt32.size < m.vertexCount + k
    omega

/-- The colors of two well-formed meshes put together are those of the row of them. -/
theorem mergedColors_eq (hm : m.WellFormed) (hn : n.WellFormed) :
    mergedColors m n = (concat [m, n]).colors := by
  obtain ⟨vertices, triangles, colors⟩ := m
  obtain ⟨vertices', triangles', colors'⟩ := n
  cases colors with
  | none =>
    cases colors' with
    | none => rfl
    | some theirs => simp [mergedColors, concat, isPainted, shownColors, vertexCount]
  | some own =>
    have hsize : own.size = vertices.size := hm.size_colors own rfl
    cases colors' with
    | none =>
      have hall : own.extract 0 (vertices.size + vertices'.size) = own :=
        Array.extract_eq_self_of_le (by omega)
      simp [mergedColors, concat, isPainted, shownColors, vertexCount, fitColors, hsize, hall]
    | some theirs => simp [mergedColors, concat, isPainted, shownColors]

/-- Two well-formed meshes are merged to the row of them, unless they have more vertices than there
    are indices. -/
theorem merge_outcome (hm : m.WellFormed) (hn : n.WellFormed) :
    Outcome (m.merge n) (UInt32.size < m.vertexCount + n.vertexCount) (· = concat [m, n]) := by
  have hmoved : Outcome (n.triangles.mapM (shifted m.nextIndex))
      (UInt32.size < m.vertexCount + n.vertexCount)
      (· = n.triangles.map (.map (indexAfter m.vertexCount))) :=
    outcome_list_mapM fun t ht =>
      outcome_triangle_mapM ((hn.corner_lt t ht).imp fun _ => checkedSum_outcome)
  refine hmoved.bind id fun moved hmoved => ?_
  have htriangles : trianglesFrom 0 [m, n] = m.triangles ++ moved := by
    rw [trianglesFrom_zero_cons, trianglesFrom, trianglesFrom, List.append_nil, hmoved]
  have hvertices : [m, n].flatMap (·.vertices.toList) = (m.vertices ++ n.vertices).toList := by
    simp
  change Mesh.mk _ _ _ = _
  rw [mergedColors_eq hm hn, ← htriangles, concat, hvertices]

end Solids.Mesh
