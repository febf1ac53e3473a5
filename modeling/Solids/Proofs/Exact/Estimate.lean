import Mathlib.Analysis.SpecialFunctions.Trigonometric.Basic
import Solids.Proofs.Build.Session
import Solids.Proofs.Exact.Extent

/-!
# Estimates contain results

The box of a tree that is not built is an estimate, made of the boxes of its kinds. Over exact
numbers it contains the box that the tree has once it is built, and so does the box of a scene
(`Session.estimates_contain`).

The argument goes up the tree (`Node.encloses_of_alone`): if the estimates of the children take in
what is built and drawn of them, so does that of their parent, in whose own space all its children
are, drawn beside its mesh or used up in it.
-/

namespace Solids

variable [Reading]

namespace Node

/-- A tree encloses a second one in its place: its box takes in that of the second one and holds
    all that is drawn of it. -/
structure Encloses (t b : Node ℝ) : Prop where
  transform_eq : b.transform = t.transform
  covers : t.bounds.Covers b.bounds
  within : Outcome b.flattened True (Mesh.Within t.worldBounds.Holds)

/-- The box of a tree in its place takes in that of one that it encloses. -/
theorem Encloses.covers_worldBounds {t b : Node ℝ} (h : t.Encloses b) :
    t.worldBounds.Covers b.worldBounds := by
  rw [worldBounds, worldBounds, h.transform_eq]
  exact Transform.covers_applyBounds _ h.covers

/-- A box extended to trees is extended to their boxes. -/
theorem unionBounds_eq (a : Bounds ℝ) (ns : List (Node ℝ)) :
    unionBounds a ns = (ns.map worldBounds).foldl Bounds.union a := by
  induction ns generalizing a with
  | nil => rfl
  | cons n ns ih => rw [unionBounds, ih, List.map_cons, List.foldl_cons, worldBounds]

/-- The estimate of a tree. -/
theorem bounds_fresh (n : Node ℝ) :
    n.fresh.bounds = unionBounds n.kind.bounds (n.children.map fresh) := by
  rw [bounds_eq, fresh_eq]
  exact if_pos (Bool.or_true _)

/-- The box of a tree is proper. -/
theorem proper_bounds (n : Node ℝ) : n.bounds.Proper := by
  induction n using induction with
  | step n ih =>
    have hextended (own : Bounds ℝ) (hown : own.Proper) :
        (if n.kind.rendersChildren || !n.isBuilt then unionBounds own n.children
          else own).Proper := by
      split
      · rw [unionBounds_eq]
        refine hown.foldl_union (List.forall_mem_map.2 fun c hc => ?_)
        exact c.transform.proper_applyBounds (ih c hc)
      · exact hown
    rw [bounds_eq]
    cases n.mesh? with
    | some m => exact hextended _ (Bounds.proper_ofPoints _)
    | none => exact hextended _ n.kind.proper_bounds

/-- A box that takes in the mesh of a tree, or else the box of its kind, and its children in their
    places takes in the box of the tree. -/
theorem covers_bounds {E : Bounds ℝ} {n : Node ℝ}
    (hmesh : ∀ m, n.mesh? = some m → E.Covers m.bounds) (hkind : E.Covers n.kind.bounds)
    (hchildren : ∀ c ∈ n.children, E.Covers c.worldBounds) : E.Covers n.bounds := by
  have hextended (own : Bounds ℝ) (hown : E.Covers own) : E.Covers
      (if n.kind.rendersChildren || !n.isBuilt then unionBounds own n.children else own) := by
    split
    · rw [unionBounds_eq]
      exact hown.foldl_union_of (List.forall_mem_map.2 hchildren)
    · exact hown
  rw [bounds_eq]
  cases hm : n.mesh? with
  | some m => exact hextended _ (hmesh m hm)
  | none => exact hextended _ hkind

/-- What is drawn of trees is where each of them is drawn. -/
theorem within_mergeFlattened {P : Vec3 ℝ → Prop} {m : Mesh ℝ} (hm : m.Within P)
    {ns : List (Node ℝ)} (h : ∀ n ∈ ns, Outcome n.flattened True (Mesh.Within P)) :
    Outcome (mergeFlattened m ns) True (Mesh.Within P) := by
  induction ns generalizing m with
  | nil => exact hm
  | cons n ns ih =>
    obtain ⟨hn, hns⟩ := List.forall_mem_cons.1 h
    rw [mergeFlattened]
    exact hn.bind id fun r hr => (hm.merge hr).bind id fun m' hm' => ih hm' hns

/-- What is drawn of a tree is where its place takes its mesh and the children drawn beside it. -/
theorem within_flattened {n : Node ℝ} {E : Bounds ℝ}
    (hmesh : ∀ m, n.mesh? = some m → m.Within E.Holds)
    (hchildren : n.kind.rendersChildren = true → ∀ c ∈ n.children,
      Outcome c.flattened True (Mesh.Within E.Holds)) :
    Outcome n.flattened True (Mesh.Within (n.transform.applyBounds E).Holds) := by
  have hdrawn : n.drawnMesh.Within E.Holds := by
    rw [drawnMesh]
    split
    · exact Mesh.within_empty
    · next m hm =>
      split
      · exact hmesh m hm
      · exact hmesh m hm
  have hplaced (all : Mesh ℝ) (hall : all.Within E.Holds) :
      (if n.transform.isIdentity then all else all.transform n.transform.matrix).Within
        (n.transform.applyBounds E).Holds := by
    rw [Transform.applyBounds]
    split
    · exact hall
    · exact Mesh.Within.transform fun p hp => (hall p hp).transformed _
  rw [flattened_eq]
  refine (Mesh.within_empty.merge hdrawn).bind id fun own hown => ?_
  cases hrenders : n.kind.rendersChildren with
  | false => exact hplaced own hown
  | true => exact (within_mergeFlattened hown (hchildren hrenders)).bind id hplaced

/-- The own mesh of a tree is in every convex set that holds the box of its kind and what is drawn
    of its children. -/
theorem within_ownMesh {P : Vec3 ℝ → Prop} (hP : Vec3.Convex P) {kind : Kind ℝ}
    (hkind : ∀ p, kind.bounds.Holds p → P p) {bs : List (Node ℝ)}
    (hbs : ∀ b ∈ bs, Outcome b.flattened True (Mesh.Within P)) {mesh : Option (Mesh ℝ)}
    (h : ownMesh kind bs = .ok mesh) : ∀ m, mesh = some m → m.Within P := by
  rw [ownMesh] at h
  split at h
  · have hconstruct := kind.within_construct hP hkind fun _ => hbs
    cases hm : kind.construct bs with
    | error e =>
      rw [hm] at h
      cases h
    | ok m =>
      rw [hm] at h hconstruct
      cases h
      rintro _ ⟨⟩
      exact hconstruct
  · cases h
    rintro _ ⟨⟩

/-- A tree encloses what is built of it alone. -/
theorem encloses_of_alone {n b : Node ℝ} (h : n.alone = .ok b) : n.fresh.Encloses b := by
  induction n using induction generalizing b with
  | step n ih =>
    obtain ⟨bs, hbs, mesh, hown, rfl⟩ := alone_eq_ok_iff.1 h
    have hcovers : ∀ a ∈ n.kind.bounds :: (n.children.map fresh).map worldBounds,
        n.fresh.bounds.Covers a := by
      rw [bounds_fresh, unionBounds_eq]
      exact Bounds.covers_foldl_union _ _
    obtain ⟨hkind, hworlds⟩ := List.forall_mem_cons.1 hcovers
    -- What is built of the children is in the estimate, each child in its place.
    have hchild : ∀ b ∈ bs, n.fresh.bounds.Covers b.worldBounds ∧
        Outcome b.flattened True (Mesh.Within n.fresh.bounds.Holds) := by
      intro b hb
      obtain ⟨c, hc, hcb⟩ := exists_mem_of_forall₂ (aloneAll_eq_ok_iff.1 hbs) hb
      have hencloses := ih c hc hcb
      have hworld := hworlds _ (List.mem_map_of_mem (List.mem_map_of_mem hc))
      exact ⟨hworld.trans hencloses.covers_worldBounds,
        hencloses.within.imp id fun m hm p hp => hworld.holds (hm p hp)⟩
    have hmesh := within_ownMesh n.fresh.bounds.convex_holds (fun p => hkind.holds)
      (fun b hb => (hchild b hb).2) hown
    refine ⟨n.fresh_transform.symm, ?_, ?_⟩
    · refine covers_bounds (fun m hm => ?_) hkind fun b hb => (hchild b hb).1
      exact Bounds.covers_ofPoints n.fresh.proper_bounds fun p hp =>
        hmesh m hm p (Array.mem_toList_iff.1 hp)
    · rw [worldBounds, fresh_transform]
      exact within_flattened (n := { n with children := bs, mesh, state := .built }) hmesh
        fun _ b hb => (hchild b hb).2

/-- Trees enclose what is built of them alone, all of them together. -/
theorem covers_of_aloneAll {ns bs : List (Node ℝ)} (h : aloneAll ns = .ok bs) (a : Bounds ℝ) :
    (unionBounds a (ns.map fresh)).Covers (unionBounds a bs) := by
  have hcovers := Bounds.covers_foldl_union a ((ns.map fresh).map worldBounds)
  rw [← unionBounds_eq] at hcovers
  obtain ⟨hself, hworlds⟩ := List.forall_mem_cons.1 hcovers
  rw [unionBounds_eq a bs]
  refine hself.foldl_union_of (List.forall_mem_map.2 fun b hb => ?_)
  obtain ⟨c, hc, hcb⟩ := exists_mem_of_forall₂ (aloneAll_eq_ok_iff.1 h) hb
  exact (hworlds _ (List.mem_map_of_mem (List.mem_map_of_mem hc))).trans
    (encloses_of_alone hcb).covers_worldBounds

end Node

namespace Session

variable {ω : Type}

/-- Over exact numbers, the box of a tree or a scene of which nothing is built contains its box
    after a build that came to the end, whatever else was built through the same cache before, to
    the end or not. The box of a kind contains that of the mesh that is made of it, if no children
    are used up in that.

    Parts of one key are taken to be the same up to names, since patterns do not tell all real
    numbers apart. Nothing is asked of meshes that were written down. -/
theorem estimates_contain :
    (∀ (limit : Nat) (trees : List (Node ℝ)) (scenes : List (Scene ℝ)) (calls : List Call)
      (w : Session ℝ ω), (∀ n ∈ trees ++ scenes.flatMap (·.roots), n.fresh = n) →
      Node.MeshByKey (Node.partsOfAll (trees ++ scenes.flatMap (·.roots))) →
      (start limit trees scenes).after calls = .ok w →
        (∀ i probe w', w.call (.tree i probe) = .ok (true, w') →
          ∃ t n, trees[i]? = some t ∧ w'.trees[i]? = some n ∧
            t.bounds.contains n.bounds = true ∧
            t.worldBounds.contains n.worldBounds = true) ∧
        ∀ i probe w', w.call (.scene i probe) = .ok (true, w') →
          ∃ t scene, scenes[i]? = some t ∧ w'.scenes[i]? = some scene ∧
            t.bounds.contains scene.bounds = true) ∧
    ∀ (kind : Kind ℝ) (children : List (Node ℝ)),
      kind.rendersChildren = true ∨ children = [] →
        ∀ m, kind.construct children = .ok m → kind.bounds.contains m.bounds = true := by
  refine ⟨fun limit trees scenes calls w hfresh hus hrun => ?_, fun kind children hused m hm => ?_⟩
  · obtain ⟨hsound, hsame⟩ := after_sound hus (sound_of_fresh rfl rfl hfresh) hrun
    constructor
    · intro i probe w' hcall
      obtain ⟨hsound', hsame', hfin⟩ := (call_outcome hus hsound _).of_ok hcall
      obtain ⟨n, hn, hfin⟩ := hfin rfl
      obtain ⟨t, b, ht, hb, hlooks⟩ := hsound'.looksLike_tree (hsame.trans hsame') hn hfin
      have hencloses := Node.encloses_of_alone hb
      rw [hfresh t (List.mem_append_left _ (List.mem_of_getElem? ht))] at hencloses
      refine ⟨t, n, ht, hn, hlooks.bounds_eq ▸ hencloses.covers.contains, ?_⟩
      rw [Node.worldBounds.eq_def n, hlooks.transform_eq, hlooks.bounds_eq]
      exact hencloses.covers_worldBounds.contains
    · intro i probe w' hcall
      obtain ⟨hsound', hsame', hfin⟩ := (call_outcome hus hsound _).of_ok hcall
      obtain ⟨scene, hscene, hfin⟩ := hfin rfl
      obtain ⟨t, bs, ht, hbs, hlooks⟩ :=
        hsound'.looksLike_scene (hsame.trans hsame') hscene hfin
      have hcovers := Node.covers_of_aloneAll hbs .empty
      have hroots : t.roots.map Node.fresh = t.roots :=
        (List.map_congr_left fun n hn => hfresh n (List.mem_append_right _
          (List.mem_flatMap.2 ⟨t, List.mem_of_getElem? ht, hn⟩))).trans (List.map_id _)
      rw [hroots, ← Node.unionBounds_congr hlooks] at hcovers
      exact ⟨t, scene, ht, hscene, hcovers.contains⟩
  · have hchildren (hrenders : kind.rendersChildren = false) : ∀ c ∈ children,
        Outcome c.flattened True (Mesh.Within kind.bounds.Holds) := by
      rw [hused.resolve_left (ne_true_of_eq_false hrenders)]
      exact fun _ hc => absurd hc List.not_mem_nil
    have hwithin := (kind.within_construct (Bounds.convex_holds _) (fun _ => id) hchildren).of_ok hm
    exact (Bounds.covers_ofPoints kind.proper_bounds fun p hp =>
      hwithin p (Array.mem_toList_iff.1 hp)).contains

end Session

end Solids

/-! ## A cube beside a cylinder -/

namespace Solids.Session

/-- A reading with patterns for zero and one, and a third for all other numbers. -/
@[reducible] noncomputable def coarseReading : Reading where
  infinity := 2 ^ 1024
  infinity_pos := by positivity
  bits x := if x = 0 then 0 else if x = 1 then 0x3ff0000000000000 else 0x7ff8000000000000

/-- The digest that counts the bytes. -/
@[reducible] def byteCount : KeyDigest where
  digest bytes := bytes.length.toUInt64

attribute [local instance] coarseReading byteCount

/-- A cube out of the way. -/
noncomputable def movedCube : Node ℝ :=
  .make .cube { Transform.identity with offset := ⟨1.0, 0.0, 0.0⟩ } .default none none []

/-- A cylinder of three segments. -/
noncomputable def prism : Node ℝ := .make (.cylinder 3) .identity .default none none []

/-- The cube beside the cylinder. -/
noncomputable def sidePair : Node ℝ :=
  .make .group .identity .default none none [movedCube, prism]

/-- The three parts have keys of their own. -/
theorem meshByKey_sidePair : Node.MeshByKey (Node.partsOfAll [sidePair]) := by
  have hparts : Node.partsOfAll [sidePair] = [sidePair, movedCube, prism] := rfl
  rw [hparts]
  intro u hu v hv hkey
  simp only [List.mem_cons, List.not_mem_nil, or_false] at hu hv
  rcases hu with rfl | rfl | rfl <;> rcases hv with rfl | rfl | rfl <;> first
    | rfl
    | exact absurd hkey (by decide +kernel)

/-- The build of the pair, interrupted before the cylinder. -/
def interrupted : List Call := [.tree 0 fun k => k == 1]

/-- The estimate of the pair contains what is built of it when its build is interrupted and taken
    up again, and the estimate of the cylinder contains its mesh. -/
theorem estimates_contain_sidePair :
    (∃ w w' n, (start 1000 [sidePair] [] : Session ℝ Unit).after interrupted = .ok w ∧
      w.call (.tree 0 fun _ => false) = .ok (true, w') ∧ w'.trees[0]? = some n ∧
      sidePair.bounds.contains n.bounds = true) ∧
    ∃ m, prism.kind.construct [] = .ok m ∧ prism.kind.bounds.contains m.bounds = true := by
  have hruns : (match (start 1000 [sidePair] [] : Session ℝ Unit).after interrupted with
      | .ok w => match w.call (.tree 0 fun _ => false) with
        | .ok (done, _) => done
        | .error _ => false
      | .error _ => false) = true := by decide +kernel
  have hcontains {w w' : Session ℝ Unit}
      (hrun : (start 1000 [sidePair] [] : Session ℝ Unit).after interrupted = .ok w)
      (hcall : w.call (.tree 0 fun _ => false) = .ok (true, w')) :
      ∃ n, w'.trees[0]? = some n ∧ sidePair.bounds.contains n.bounds = true := by
    obtain ⟨t, n, ht, hn, hbounds, _⟩ := (estimates_contain.1 1000 [sidePair] [] interrupted w
      (List.forall_mem_singleton.2 rfl) meshByKey_sidePair hrun).1 0 _ w' hcall
    cases ht
    exact ⟨n, hn, hbounds⟩
  constructor
  · cases hrun : (start 1000 [sidePair] [] : Session ℝ Unit).after interrupted with
    | error e =>
      rw [hrun] at hruns
      cases hruns
    | ok w =>
      rw [hrun] at hruns
      cases hcall : w.call (.tree 0 fun _ => false) with
      | error e =>
        simp only [hcall] at hruns
        cases hruns
      | ok r =>
        obtain ⟨done, w'⟩ := r
        simp only [hcall] at hruns
        subst hruns
        obtain ⟨n, hn, hbounds⟩ := hcontains hrun hcall
        exact ⟨w, w', n, rfl, hcall, hn, hbounds⟩
  · exact ⟨_, rfl, (@estimates_contain _ Unit).2 prism.kind [] (.inl rfl) _ rfl⟩

end Solids.Session
