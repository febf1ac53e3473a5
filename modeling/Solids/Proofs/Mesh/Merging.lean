import Solids.Proofs.Mesh.Idle

/-!
# Merging in any grouping

Meshes are merged two at a time, and a list of parts may be grouped for that in many ways
(`Mesh.Grouping`). For well-formed meshes that have no more vertices together than there are indices
it does not matter which one is taken: two rows of meshes are merged to one (`merge_concat`), and so
every grouping makes the row of its parts (`Grouping.merged_eq_concat`). In the row each part is
what it was (`Mesh.Carries`). Its vertices have the colors that it shows, also where these are
written down only since another part is painted.

* `merge_monoid`: merging is associative, the mesh without vertices is its unit, and every grouping
  of parts succeeds and gives the same well-formed mesh, with all vertices in their colors.
-/

namespace Solids.Mesh

variable {α : Type}

/-! ## Groupings -/

/-- A way to merge meshes two at a time. -/
inductive Grouping (α : Type)
  | nothing
  | part (m : Mesh α)
  | both (g h : Grouping α)

namespace Grouping

/-- The meshes that are merged, in order. -/
def parts : Grouping α → List (Mesh α)
  | nothing => []
  | part m => [m]
  | both g h => g.parts ++ h.parts

/-- What the meshes are merged to. -/
def merged : Grouping α → Except Fault (Mesh α)
  | nothing => .ok empty
  | part m => .ok m
  | both g h => do (← g.merged).merge (← h.merged)

end Grouping

variable {m : Mesh α} {ms ns before after : List (Mesh α)}

/-- Two rows of well-formed meshes are merged to one, as long as there are indices for their
    vertices. -/
theorem merge_concat (hms : ∀ m ∈ ms, m.WellFormed) (hns : ∀ n ∈ ns, n.WellFormed)
    (htotal : vertexTotal (ms ++ ns) ≤ UInt32.size) :
    (concat ms).merge (concat ns) = .ok (concat (ms ++ ns)) := by
  have hsize : ¬UInt32.size < (concat ms).vertexCount + (concat ns).vertexCount := by
    rw [vertexCount_concat, vertexCount_concat, ← vertexTotal_append]
    exact Nat.not_lt.2 htotal
  obtain ⟨r, hr, hrow⟩ := ((merge_outcome (wellFormed_concat hms) (wellFormed_concat hns)).imp hsize
    fun _ => id).exists_ok
  rw [hr, hrow, concat_concat]

/-- However well-formed meshes are grouped, they are merged to the row of them. -/
theorem Grouping.merged_eq_concat {g : Grouping α} (hparts : ∀ m ∈ g.parts, m.WellFormed)
    (htotal : vertexTotal g.parts ≤ UInt32.size) : g.merged = .ok (concat g.parts) := by
  induction g with
  | nothing => rfl
  | part m => exact congrArg Except.ok (concat_singleton m).symm
  | both g h ihg ihh =>
    obtain ⟨hg, hh⟩ := List.forall_mem_append.1 hparts
    have hsum : vertexTotal g.parts + vertexTotal h.parts ≤ UInt32.size :=
      vertexTotal_append g.parts h.parts ▸ htotal
    rw [merged, ihg hg (by omega), ihh hh (by omega)]
    exact merge_concat hg hh htotal

/-- Well-formed meshes put together in order are the row of them. -/
theorem mergeAll_eq_concat (hms : ∀ m ∈ ms, m.WellFormed)
    (htotal : vertexTotal ms ≤ UInt32.size) : mergeAll ms = .ok (concat ms) := by
  induction ms using List.reverseRecOn with
  | nil => rfl
  | append_singleton ms m ih =>
    obtain ⟨hms, hm⟩ := List.forall_mem_append.1 hms
    have hmerge := merge_concat hms hm htotal
    rw [concat_singleton] at hmerge
    rw [vertexTotal_append] at htotal
    rw [mergeAll, List.foldlM_append]
    change (mergeAll ms >>= fun r => [m].foldlM merge r) = _
    rw [ih hms (by omega)]
    change (concat ms).merge m >>= pure = _
    rw [bind_pure, hmerge]

/-! ## Parts of a row -/

/-- `m` is in `r` from the vertex `base` on: its vertices with the colors that they show, and its
    triangles over them. -/
structure Carries (r : Mesh α) (base : ℕ) (m : Mesh α) : Prop where
  vertex_eq : ∀ i : UInt32, i.toNat < m.vertexCount → r.vertex (indexAfter base i) = m.vertex i
  vertexColor_eq : ∀ i : UInt32, i.toNat < m.vertexCount →
    r.vertexColor (indexAfter base i) = m.vertexColor i
  triangle_mem : ∀ t ∈ m.triangles, t.map (indexAfter base) ∈ r.triangles

section Row

variable (h : ∀ n ∈ before ++ m :: after, n.WellFormed)
  (htotal : vertexTotal (before ++ m :: after) ≤ UInt32.size) {i : UInt32}
  (hi : i.toNat < m.vertexCount)

include htotal hi

/-- There is an index for every vertex of a part. -/
theorem toNat_indexAfter_vertexTotal :
    (indexAfter (vertexTotal before) i).toNat = vertexTotal before + i.toNat := by
  rw [vertexTotal_append, vertexTotal_cons] at htotal
  exact toNat_indexAfter (by omega)

/-- A vertex of a part is where it was. -/
theorem vertex_concat : (concat (before ++ m :: after)).vertex (indexAfter (vertexTotal before) i) =
    m.vertex i := by
  have hlength : (before.flatMap (·.vertices.toList)).length = vertexTotal before :=
    List.length_flatMap
  have hget := getElem?_flatMap_add (fun n : Mesh α => n.vertices.toList) after hlength hi
  rw [vertex, vertex, toNat_indexAfter_vertexTotal htotal hi, concat, List.getElem?_toArray, hget,
    Array.getElem?_toList, Array.getElem?_eq_getElem hi]

include h

/-- A vertex of a part has the color that the part shows for it. -/
theorem vertexColor_concat :
    (concat (before ++ m :: after)).vertexColor (indexAfter (vertexTotal before) i) =
      m.vertexColor i := by
  obtain ⟨hbefore, hrest⟩ := List.forall_mem_append.1 h
  have hm : m.WellFormed := hrest m List.mem_cons_self
  have hindex := toNat_indexAfter_vertexTotal htotal hi
  -- The row shows the colors of its parts one after another, as many as a part has vertices.
  have hget := getElem?_flatMap_add (fun n : Mesh α => n.shownColors.toList) after
    (length_flatMap_shownColors hbefore) (hi.trans_eq hm.size_shownColors.symm)
  have hlt : (indexAfter (vertexTotal before) i).toNat <
      (concat (before ++ m :: after)).vertexCount := by
    rw [hindex, vertexCount_concat, vertexTotal_append, vertexTotal_cons]
    omega
  obtain ⟨c, hshown, hcolor⟩ := hm.exists_vertexColor_eq hi
  obtain ⟨c', hshown', hcolor'⟩ := (wellFormed_concat h).exists_vertexColor_eq hlt
  rw [hindex, shownColors_concat, List.getElem?_toArray, hget, Array.getElem?_toList,
    hshown] at hshown'
  rw [hcolor, hcolor', Option.some.inj hshown']

end Row

/-- A triangle of a part is moved up by the vertices before the part. -/
theorem map_mem_triangles_concat {t : Triangle UInt32} (ht : t ∈ m.triangles) :
    t.map (indexAfter (vertexTotal before)) ∈ (concat (before ++ m :: after)).triangles := by
  change _ ∈ trianglesFrom 0 (before ++ m :: after)
  rw [trianglesFrom_append, Nat.zero_add]
  exact List.mem_append_right _ (List.mem_append_left _ (List.mem_map_of_mem ht))

/-! ## The monoid -/

/-- Merging is a monoid on the well-formed meshes that have an index for every vertex. The mesh
    without vertices is its unit, and it makes no difference whether the second of three meshes is
    merged with the first one or with the last one before. So all groupings of some parts give one
    mesh, which is that of the parts put together in order. It is well formed, and every vertex of a
    part has its position and color in it. -/
theorem merge_monoid :
    (∀ m : Mesh α, m.WellFormed → empty.merge m = .ok m ∧ m.merge empty = .ok m) ∧
    (∀ a b c : Mesh α, a.WellFormed → b.WellFormed → c.WellFormed →
      vertexTotal [a, b, c] ≤ UInt32.size → ∃ ab bc abc, a.merge b = .ok ab ∧
        ab.merge c = .ok abc ∧ b.merge c = .ok bc ∧ a.merge bc = .ok abc) ∧
    ∀ g : Grouping α, (∀ m ∈ g.parts, m.WellFormed) → vertexTotal g.parts ≤ UInt32.size →
      ∃ r, g.merged = .ok r ∧ mergeAll g.parts = .ok r ∧ r.WellFormed ∧
        ∀ before m after, g.parts = before ++ m :: after → r.Carries (vertexTotal before) m := by
  refine ⟨fun m hm => ⟨empty_merge m, merge_empty hm⟩, fun a b c ha hb hc htotal => ?_,
    fun g hparts htotal => ?_⟩
  · have hparts : ∀ m ∈ [a, b, c], m.WellFormed := by simp [ha, hb, hc]
    have hmerged (g : Grouping α) (hg : g.parts.Sublist [a, b, c]) :
        g.merged = .ok (concat g.parts) :=
      g.merged_eq_concat (fun m hm => hparts m (hg.subset hm))
        (((hg.map vertexCount).sum_le_sum fun _ _ => Nat.zero_le _).trans htotal)
    have hab : a.merge b = .ok (concat [a, b]) :=
      hmerged (.both (.part a) (.part b)) (by simp [Grouping.parts])
    have hbc : b.merge c = .ok (concat [b, c]) :=
      hmerged (.both (.part b) (.part c)) (by simp [Grouping.parts])
    have hleft := hmerged (.both (.both (.part a) (.part b)) (.part c)) (.refl _)
    have hright := hmerged (.both (.part a) (.both (.part b) (.part c))) (.refl _)
    change (a.merge b >>= fun ab => ab.merge c) = _ at hleft
    change (b.merge c >>= fun bc => a.merge bc) = _ at hright
    rw [hab] at hleft
    rw [hbc] at hright
    exact ⟨concat [a, b], concat [b, c], concat [a, b, c], hab, hleft, hbc, hright⟩
  · refine ⟨concat g.parts, Grouping.merged_eq_concat hparts htotal,
      mergeAll_eq_concat hparts htotal, wellFormed_concat hparts, fun before m after heq => ?_⟩
    rw [heq] at hparts htotal ⊢
    exact ⟨fun i hi => vertex_concat htotal hi, fun i hi => vertexColor_concat hparts htotal hi,
      fun t ht => map_mem_triangles_concat ht⟩

/-- A triangle that nobody painted. -/
def pane : Mesh Float where
  vertices := #[⟨0.0, 0.0, 0.0⟩, ⟨1.0, 0.0, 0.0⟩, ⟨0.0, 1.0, 0.0⟩]
  triangles := [⟨0, 1, 2⟩]

/-- A triangle that is red all over. -/
def redPane : Mesh Float := pane.paint ⟨1.0, 0.0, 0.0, 1.0⟩

/-- A red triangle between two that nobody painted: whichever two are merged first, the six
    vertices of these are unpainted and its own are red. -/
theorem merge_monoid_panes : pane.WellFormed ∧ redPane.WellFormed ∧
    vertexTotal [pane, redPane, pane] = 9 ∧ empty.merge redPane = .ok redPane ∧
    ∃ ab bc abc, pane.merge redPane = .ok ab ∧ ab.merge pane = .ok abc ∧
      redPane.merge pane = .ok bc ∧ pane.merge bc = .ok abc ∧ abc.WellFormed ∧
      abc.vertexColor 0 = .ok .unpainted ∧ abc.vertexColor 4 = .ok ⟨1.0, 0.0, 0.0, 1.0⟩ ∧
      abc.vertexColor 8 = .ok .unpainted := by
  have hpane : pane.WellFormed := by decide
  have hred : redPane.WellFormed := by decide
  obtain ⟨ab, bc, abc, hab, hleft, hbc, hright⟩ :=
    merge_monoid.2.1 pane redPane pane hpane hred hpane (by decide)
  obtain ⟨r, hr, -, hwell, hcarries⟩ := merge_monoid.2.2
    (.both (.part pane) (.both (.part redPane) (.part pane)))
    (by simp [Grouping.parts, hpane, hred]) (by decide)
  change (redPane.merge pane >>= fun bc => pane.merge bc) = .ok r at hr
  rw [hbc] at hr
  obtain rfl : abc = r := Except.ok.inj (hright.symm.trans hr)
  refine ⟨hpane, hred, rfl, (merge_monoid.1 redPane hred).1, ab, bc, abc, hab, hleft, hbc, hright,
    hwell, ?_, ?_, ?_⟩
  · exact (hcarries [] pane [redPane, pane] rfl).vertexColor_eq 0 (by decide)
  · exact (hcarries [pane] redPane [pane] rfl).vertexColor_eq 1 (by decide)
  · exact (hcarries [pane, redPane] pane [] rfl).vertexColor_eq 2 (by decide)

end Solids.Mesh
