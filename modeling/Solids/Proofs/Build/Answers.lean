import Solids.Proofs.Build.Complete
import Solids.Proofs.Key.Unambiguous

/-!
# What builds and scenes tell of themselves

Two answers are taken as signs that all is built, and each is so in one direction only.

* A build that tells that it came to the end left the tree finished. A build of a finished tree
  tells so only if its probe lets it: it still asks before each part that is drawn below the root
  (`Node.done_of_finished`, `Node.stopped_groupedCube`).
* A scene tells that it is built where its roots are. That is right for roots that have no mesh of
  their own or draw nothing below them, since these are only built once all that is drawn with them
  is (`Node.Sealed`, `Scene.whole_of_isBuilt`). A root with both is built as soon as its mesh is
  found, and stays so if the build is stopped below it (`Scene.isBuilt_stackedCubes`).
-/

namespace Solids

variable {α ω : Type}

namespace Node

/-- The drawn parts of trees are those that are drawn with one of them, if that holds of each. -/
theorem mem_drawnPartsOfAll {p : Node α} {ns : List (Node α)}
    (h : ∀ n ∈ ns, p ∈ n.drawnParts ↔ n.Drawn p) :
    p ∈ drawnPartsOfAll ns ↔ ∃ n ∈ ns, n.Drawn p := by
  induction ns with
  | nil => simp [drawnPartsOfAll]
  | cons n ns ih =>
    obtain ⟨hn, hns⟩ := List.forall_mem_cons.1 h
    rw [drawnPartsOfAll, List.mem_append, hn, ih hns, List.exists_mem_cons_iff]

/-- The drawn parts are those that are drawn with the root. -/
theorem mem_drawnParts {p n : Node α} : p ∈ n.drawnParts ↔ n.Drawn p := by
  induction n using induction with
  | step n ih =>
    rw [drawnParts_eq, List.mem_cons, drawnBelow]
    split
    · next hrenders =>
      rw [mem_drawnPartsOfAll ih]
      constructor
      · rintro (rfl | ⟨c, hc, hp⟩)
        · exact .self p
        · exact .child hrenders hc hp
      · intro h
        cases h with
        | self => exact .inl rfl
        | child _ hc hp => exact .inr ⟨_, hc, hp⟩
    · next hplain =>
      constructor
      · rintro (rfl | hp)
        · exact .self p
        · cases hp
      · intro h
        cases h with
        | self => exact .inl rfl
        | child hrenders _ _ => exact absurd hrenders hplain

/-! ## What stays finished -/

/-- A part that draws nothing below it is finished once it is built. -/
theorem finished_of_drawnBelow_eq_nil {n : Node α} (hbuilt : n.isBuilt = true)
    (hnil : n.drawnBelow = []) : n.Finished := by
  refine .intro hbuilt fun hrenders c hc => ?_
  rw [drawnBelow, if_pos hrenders] at hnil
  have hmem : c ∈ drawnPartsOfAll n.children :=
    (mem_drawnPartsOfAll fun _ _ => mem_drawnParts).2 ⟨c, hc, .self c⟩
  rw [hnil] at hmem
  cases hmem

/-- Parts of the tree that are built and have no mesh of their own are finished. -/
def Sealed (n : Node α) : Prop :=
  ∀ p ∈ n.parts, p.isBuilt = true → p.kind.hasOwnMesh = false → p.Finished

/-- A tree is sealed if its root is finished where it should be, and its children are sealed. -/
theorem sealed_iff {n : Node α} : n.Sealed ↔
    (n.isBuilt = true → n.kind.hasOwnMesh = false → n.Finished) ∧ ∀ c ∈ n.children, c.Sealed :=
  forall_mem_parts

/-- A tree is sealed as long as none of its parts is built. -/
theorem sealed_of_unbuilt {n : Node α} (h : ∀ p ∈ n.parts, p.isBuilt = false) : n.Sealed :=
  fun p hp hbuilt => absurd ((h p hp).symm.trans hbuilt) Bool.false_ne_true

variable [Scalar α] {probe : Nat → Bool}

/-- A build of a sealed tree leaves it sealed, whether it comes to the end or not. -/
theorem sealed_of_build {n n' : Node α} {s s' : Site α ω} {done : Bool} (hn : n.Sealed)
    (h : n.build probe s = .ok (done, n', s')) : n'.Sealed := by
  induction n using induction generalizing s done n' s' with
  | step n ih =>
    obtain ⟨hself, hchildren⟩ := sealed_iff.1 hn
    have hall {s s' : Site α ω} {done : Bool} {cs : List (Node α)}
        (h : buildAll probe n.children s = .ok (done, cs, s')) : ∀ c ∈ cs, c.Sealed :=
      (allEnd_of_buildAll h).keeps hchildren fun c hc _ _ _ _ hb hsealed => ih c hc hsealed hb
    cases ends_of_build h with
    | built hbuilt hdrawn =>
      by_cases hown : n.kind.hasOwnMesh = true
      · cases hdrawn with
        | plain _ => exact hn
        | drawn _ hcs =>
          exact sealed_iff.2 ⟨fun _ hplain => absurd (hown.symm.trans hplain) Bool.true_eq_false.mp,
            hall hcs⟩
      · -- The part is finished already, so that the build leaves it as it is.
        rw [build_of_finished (hself hbuilt (Bool.not_eq_true _ ▸ hown))] at h
        cases h
        exact hn
    | found _ hm hdrawn =>
      have hown := hasOwnMesh_of_lookup hm
      have hvacuous {β : Prop} (hplain : n.kind.hasOwnMesh = false) : β :=
        absurd (hown.symm.trans hplain) Bool.true_eq_false.mp
      cases hdrawn with
      | plain _ => exact sealed_iff.2 ⟨fun _ => hvacuous, hchildren⟩
      | drawn _ hcs => exact sealed_iff.2 ⟨fun _ => hvacuous, hall hcs⟩
    | stopped _ _ hcs =>
      exact sealed_iff.2 ⟨fun hbuilt => absurd hbuilt Bool.false_ne_true, hall hcs⟩
    | finished _ _ hcs hfinishes =>
      have hfin := finished_of_build h
      cases hfinishes with
      | constructed _ _ => exact sealed_iff.2 ⟨fun _ _ => hfin, hall hcs⟩
      | plain _ => exact sealed_iff.2 ⟨fun _ _ => hfin, hall hcs⟩

/-! ## What a build tells -/

/-- A build of a tree all of whose drawn parts are built leaves the tree and the cache as they are.
    It tells that it came to the end exactly if the probe says to stop before none of the parts that
    are drawn below the root. So every build tells so exactly if there is no such part, and where
    there is one, a probe that always says to stop makes a build tell that it did not. -/
theorem done_of_finished {n : Node α} (h : ∀ p, n.Drawn p → p.isBuilt = true) :
    (∀ (probe : Nat → Bool) (s : Site α ω), ∃ done s', n.build probe s = .ok (done, n, s') ∧
      s'.cache = s.cache ∧
        (done = true ↔ ∀ i < n.drawnBelow.length, probe (s.polls + i) = false)) ∧
      ((∀ (probe : Nat → Bool) (s : Site α ω), ∃ s', n.build probe s = .ok (true, n, s')) ↔
        n.drawnBelow = []) ∧
      (n.drawnBelow ≠ [] → ∀ s : Site α ω,
        ∃ s', n.build (fun _ => true) s = .ok (false, n, s')) := by
  have hbuild (probe : Nat → Bool) (s : Site α ω) : n.build probe s = .ok
      ((s.ask probe n.drawnBelow.length).1, n, (s.ask probe n.drawnBelow.length).2) :=
    build_of_finished (finished_iff.2 h) s
  have hstop (hne : n.drawnBelow ≠ []) (s : Site α ω) :
      ∃ s', n.build (fun _ => true) s = .ok (false, n, s') := by
    have hfst : (s.ask (fun _ => true) n.drawnBelow.length).1 = false := by
      rw [← Bool.not_eq_true, Site.ask_fst_iff]
      exact fun hgo => absurd (hgo 0 (List.length_pos_iff.2 hne)) Bool.true_eq_false.mp
    exact ⟨_, hfst ▸ hbuild (fun _ => true) s⟩
  refine ⟨fun probe s => ⟨_, _, hbuild probe s, Site.ask_cache _ s, Site.ask_fst_iff _ s⟩,
    ?_, hstop⟩
  constructor
  · intro hall
    by_contra hne
    obtain ⟨s₁, h₁⟩ := hstop hne { cache := .new 0 }
    obtain ⟨s₂, h₂⟩ := hall (fun _ => true) { cache := .new 0 }
    cases h₁.symm.trans h₂
  · intro hnil probe s
    exact ⟨s, (hbuild probe s).trans (by rw [hnil]; rfl)⟩

section Mixing

attribute [local instance] KeyDigest.mixing

/-- Once the group of a union is built, a probe that stops every build has it told not to be. -/
theorem done_unitedCube : ∃ (n : Node Float) (s : Site Float Unit),
    unitedCube.build (fun _ => false) { cache := .new 100000 } = .ok (true, n, s) ∧
      ((∀ probe (s : Site Float Unit), ∃ s', n.build probe s = .ok (true, n, s')) ↔
        n.drawnBelow = []) := by
  obtain ⟨⟨n, s⟩, hrun⟩ : ∃ r, unitedCube.build (fun _ => false)
      ({ cache := .new 100000 } : Site Float Unit) = .ok (true, r) :=
    exists_of_done? (by decide +kernel)
  exact ⟨n, s, hrun, (done_of_finished (finished_iff.1 (finished_of_build hrun))).2.1⟩

/-- A group of a cube is built to the end. Nothing is left to do then, and the next build is told
    not to have come to the end by a probe that always says to stop. -/
theorem stopped_groupedCube : ∃ (n : Node Float) (s s' : Site Float Unit),
    groupedCube.build (fun _ => false) { cache := .new 100000 } = .ok (true, n, s) ∧
      (∀ p, n.Drawn p → p.isBuilt = true) ∧
      n.build (fun _ => true) s = .ok (false, n, s') := by
  have hruns : done? (do
      let (_, n, s) ← groupedCube.build (fun _ => false)
        ({ cache := .new 100000 } : Site Float Unit)
      n.build (fun _ => true) s) = some false := by decide +kernel
  obtain ⟨⟨n', s'⟩, hruns⟩ := exists_of_done? hruns
  obtain ⟨⟨done, n, s⟩, hrun, hagain⟩ := bind_eq_ok_iff.1 hruns
  have hdone : done = true := by
    have hfirst : done? (groupedCube.build (fun _ => false)
        ({ cache := .new 100000 } : Site Float Unit)) = some true := by decide +kernel
    rw [hrun] at hfirst
    exact Option.some.inj hfirst
  subst hdone
  have hfin := finished_of_build hrun
  have hsame : n' = n := by
    change n.build (fun _ => true) s = .ok (false, n', s') at hagain
    rw [build_of_finished hfin, Except.ok.injEq, Prod.mk.injEq, Prod.mk.injEq] at hagain
    exact hagain.2.1.symm
  exact ⟨n, s, s', hrun, finished_iff.1 hfin, hsame ▸ hagain⟩

end Mixing

end Node

/-! ## What a scene tells -/

namespace Scene

variable [Scalar α] {probe : Nat → Bool}

/-- A scene before and after builds, each of them to the end or not, through caches that may be
    anything. -/
inductive Becomes (ω : Type) : Scene α → Scene α → Prop
  | refl (scene : Scene α) : Becomes ω scene scene
  | build {scene scene' scene'' : Scene α} {s s' : Site α ω} {probe : Nat → Bool} {done : Bool} :
      Becomes ω scene scene' → scene'.build probe s = .ok (done, scene'', s') →
      Becomes ω scene scene''

/-- All that is drawn of the scene is built. -/
def Whole (scene : Scene α) : Prop := ∀ n ∈ scene.roots, ∀ p, n.Drawn p → p.isBuilt = true

/-- A build of a scene is one of its roots. -/
theorem exists_of_build {scene scene' : Scene α} {s s' : Site α ω} {done : Bool}
    (h : scene.build probe s = .ok (done, scene', s')) :
    ∃ roots, Node.buildAll probe scene.roots s = .ok (done, roots, s') ∧
      scene' = { scene with roots } := by
  obtain ⟨⟨done, roots, s'⟩, hall, h⟩ := bind_eq_ok_iff.1 h
  cases h
  exact ⟨roots, hall, rfl⟩

/-- Builds leave the roots sealed. -/
theorem Becomes.sealed {scene scene' : Scene α} (h : Becomes ω scene scene')
    (hroots : ∀ n ∈ scene.roots, n.Sealed) : ∀ n ∈ scene'.roots, n.Sealed := by
  induction h with
  | refl => exact hroots
  | build _ hbuild ih =>
    obtain ⟨_, hall, rfl⟩ := exists_of_build hbuild
    exact (Node.allEnd_of_buildAll hall).keeps ih fun _ _ _ _ _ _ hb hn =>
      Node.sealed_of_build hn hb

/-- A build of a scene that comes to the end leaves it whole. -/
theorem whole_of_build {scene scene' : Scene α} {s s' : Site α ω}
    (h : scene.build probe s = .ok (true, scene', s')) : scene'.Whole := by
  obtain ⟨_, hall, rfl⟩ := exists_of_build h
  intro n hn
  refine Node.finished_iff.1 ?_
  exact (Node.allEnd_of_buildAll hall).forall_mem rfl
    (fun _ _ _ _ _ hb => Node.finished_of_build hb) n hn

/-- Builds change nothing of a scene that is whole. -/
theorem Whole.eq_of_becomes {scene scene' : Scene α} (h : Becomes ω scene scene')
    (hwhole : scene.Whole) : scene' = scene := by
  induction h with
  | refl => rfl
  | build _ hbuild ih =>
    subst ih
    obtain ⟨_, hall, rfl⟩ := exists_of_build hbuild
    rw [Node.buildAll_eq_ask fun n hn _ =>
      Node.build_of_finished (Node.finished_iff.2 (hwhole n hn)) _] at hall
    cases hall
    rfl

/-- A scene in which nothing was built at first tells that it is built only where each root is, and
    each root is then built with all that is drawn with it if it has no mesh of its own or draws
    nothing below it. What a build that comes to the end leaves is whole, and tells that it is
    built; what is whole stays as it is, whatever builds follow, and so do its polygons. -/
theorem whole_of_isBuilt {scene scene' : Scene α}
    (hfresh : ∀ n ∈ scene.roots, ∀ p ∈ n.parts, p.isBuilt = false) (h : Becomes ω scene scene') :
    (scene'.isBuilt = true → ∀ n ∈ scene'.roots, n.isBuilt = true ∧
      ((n.kind.hasOwnMesh = true → n.drawnBelow = []) → ∀ p, n.Drawn p → p.isBuilt = true)) ∧
    (∀ (probe : Nat → Bool) (s s' : Site α ω) (scene'' : Scene α),
      scene'.build probe s = .ok (true, scene'', s') → scene''.Whole ∧ scene''.isBuilt = true) ∧
    (scene'.Whole → ∀ scene'', Becomes ω scene' scene'' → scene'' = scene') := by
  have hsealed := h.sealed fun n hn => Node.sealed_of_unbuilt (hfresh n hn)
  refine ⟨fun hbuilt n hn => ?_, fun probe s s' scene'' hb => ?_,
    fun hwhole _ => hwhole.eq_of_becomes⟩
  · have hroot := List.all_eq_true.1 hbuilt n hn
    refine ⟨hroot, fun hbelow => Node.finished_iff.1 ?_⟩
    by_cases hown : n.kind.hasOwnMesh = true
    · exact Node.finished_of_drawnBelow_eq_nil hroot (hbelow hown)
    · exact hsealed n hn n n.self_mem_parts hroot (Bool.not_eq_true _ ▸ hown)
  · have hwhole := whole_of_build hb
    exact ⟨hwhole, List.all_eq_true.2 fun n hn => hwhole n hn n (.self n)⟩

section Mixing

attribute [local instance] KeyDigest.mixing

/-- A build of a scene of the group of a union comes to the end, and leaves it whole. -/
theorem whole_unitedCube : ∃ (scene : Scene Float) (s : Site Float Unit),
    (Scene.new none [Node.unitedCube]).build (fun _ => false) { cache := .new 0 } =
        .ok (true, scene, s) ∧
      scene.isBuilt = true ∧ ∀ n ∈ scene.roots, n.isBuilt = true ∧
        ((n.kind.hasOwnMesh = true → n.drawnBelow = []) → ∀ p, n.Drawn p → p.isBuilt = true) := by
  obtain ⟨⟨scene, s⟩, hrun⟩ : ∃ r, (Scene.new none [Node.unitedCube]).build (fun _ => false)
      ({ cache := .new 0 } : Site Float Unit) = .ok (true, r) :=
    exists_of_done? (by decide +kernel)
  have hfresh : ∀ n ∈ [Node.unitedCube], ∀ p ∈ n.parts, p.isBuilt = false := by decide +kernel
  obtain ⟨_, hend, _⟩ := whole_of_isBuilt (ω := Unit) hfresh (.refl (Scene.new none _))
  have hbuilt := (hend _ _ _ _ hrun).2
  exact ⟨scene, s, hrun, hbuilt,
    (whole_of_isBuilt hfresh (.build (.refl (Scene.new none _)) hrun)).1 hbuilt⟩

/-- A cube with a cube beside it. -/
def stackedCube : Node Float := (Node.new .cube).withChildren [Node.new .cube]

/-- A build of a scene of two cubes with a cube beside each is stopped where only the last one is
    missing. The scene tells that it is built, but counts 36 polygons, and 48 when it is built to
    the end. -/
theorem isBuilt_stackedCubes : ∃ (scene whole : Scene Float) (s s' : Site Float Unit),
    (Scene.new none [stackedCube, stackedCube]).build (· == 3) { cache := .new 100000 } =
        .ok (false, scene, s) ∧
      scene.build (fun _ => false) s = .ok (true, whole, s') ∧
      scene.isBuilt = true ∧ ¬scene.Whole ∧
      scene.polygonCount = 36 ∧ whole.polygonCount = 48 := by
  have hruns : done? (do
      let (done, scene, s) ← (Scene.new none [stackedCube, stackedCube]).build (· == 3)
        ({ cache := .new 100000 } : Site Float Unit)
      let (done', whole, _) ← scene.build (fun _ => false) s
      return (decide (done = false ∧ done' = true ∧ scene.isBuilt = true ∧
        scene.polygonCount = 36 ∧ whole.polygonCount = 48), ())) = some true := by decide +kernel
  obtain ⟨_, hruns⟩ := exists_of_done? hruns
  obtain ⟨⟨done, scene, s⟩, hrun, hruns⟩ := bind_eq_ok_iff.1 hruns
  obtain ⟨⟨done', whole, s'⟩, hagain, hruns⟩ := bind_eq_ok_iff.1 hruns
  obtain ⟨rfl, rfl, hbuilt, hcount, hcount'⟩ :=
    of_decide_eq_true (Prod.ext_iff.1 (Except.ok.inj hruns)).1
  refine ⟨scene, whole, s, s', hrun, hagain, hbuilt, fun hwhole => ?_, hcount, hcount'⟩
  have hsame := hwhole.eq_of_becomes (.build (.refl scene) hagain)
  rw [hsame, hcount] at hcount'
  cases hcount'

end Mixing

end Scene

end Solids
