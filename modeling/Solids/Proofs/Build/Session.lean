import Solids.Proofs.Build.Coherent
import Solids.Proofs.Build.Complete
import Solids.Proofs.Key.Unambiguous

/-!
# Builds of many trees

Trees and scenes are built one after another, again and again, through one cache (`Session`). Any
call may be interrupted, and the cache may have any limit. What builds of the trees keep, calls keep
(`call_rule`).

Whatever is called, every part that is built has the mesh that it gets alone (`Sound.mesh?_eq`), and
a tree or a scene whose build came to the end looks as if there was no cache
(`Sound.looksLike_tree`, `Sound.looksLike_scene`). This takes keys that tell parts apart: the digest
confuses no two of them (`Node.CollisionFree`), and parts that are alike are the same up to names
(`Told`).
-/

namespace Solids

variable {α ω : Type} [Scalar α]

/-- A cache, and the trees and scenes that are built through it. -/
structure Session (α ω : Type) where
  cache : Cache α ω
  trees : List (Node α)
  scenes : List (Scene α)

namespace Session

/-- What a session is asked to build, and when to stop. -/
inductive Call
  | tree (i : Nat) (probe : Nat → Bool)
  | scene (i : Nat) (probe : Nat → Bool)

/-- The session with an empty cache. -/
def start (limit : Nat) (trees : List (Node α)) (scenes : List (Scene α)) : Session α ω :=
  ⟨.new limit, trees, scenes⟩

/-- The session after a call, and whether the build came to the end. -/
def call (w : Session α ω) : Call → Except Fault (Bool × Session α ω)
  | .tree i probe =>
    match w.trees[i]? with
    | none => .ok (false, w)
    | some n => do
      let (done, n, s) ← n.build probe { cache := w.cache }
      return (done, { w with cache := s.cache, trees := w.trees.set i n })
  | .scene i probe =>
    match w.scenes[i]? with
    | none => .ok (false, w)
    | some scene => do
      let (done, scene, s) ← scene.build probe { cache := w.cache }
      return (done, { w with cache := s.cache, scenes := w.scenes.set i scene })

/-- The session after calls. -/
def after (w : Session α ω) : List Call → Except Fault (Session α ω)
  | [] => .ok w
  | c :: cs => do
    let (_, w) ← w.call c
    w.after cs

/-- All trees, those of the scenes last. -/
def roots (w : Session α ω) : List (Node α) := w.trees ++ w.scenes.flatMap (·.roots)

/-! ## What calls preserve -/

/-- The sessions have the same trees and scenes, built to some extent. -/
structure Same (w w' : Session α ω) : Prop where
  trees_eq : w'.trees.map Node.fresh = w.trees.map Node.fresh
  scenes_eq : (w'.scenes.map fun scene => scene.roots.map Node.fresh) =
    w.scenes.map fun scene => scene.roots.map Node.fresh

/-- The cache is coherent for the given parts, and the trees consist of them and are right. -/
structure Sound (us : List (Node α)) (w : Session α ω) : Prop where
  coherent : w.cache.Coherent us
  among : ∀ n ∈ w.roots, n.Among us
  right : ∀ n ∈ w.roots, n.Right

/-- What the call was for is finished. -/
def FinishedFor (w : Session α ω) : Call → Prop
  | .tree i _ => ∃ n, w.trees[i]? = some n ∧ n.Finished
  | .scene i _ => ∃ scene, w.scenes[i]? = some scene ∧ ∀ n ∈ scene.roots, n.Finished

omit [Scalar α] in
/-- The trees are the same, built to some extent. -/
theorem Same.roots_eq {w w' : Session α ω} (h : w.Same w') :
    w'.roots.map Node.fresh = w.roots.map Node.fresh := by
  have hflat (scenes : List (Scene α)) : (scenes.flatMap (·.roots)).map Node.fresh =
      (scenes.map fun scene => scene.roots.map Node.fresh).flatten := by
    rw [List.map_flatMap, List.flatMap]
  rw [roots, roots, List.map_append, List.map_append, h.trees_eq, hflat, hflat, h.scenes_eq]

omit [Scalar α] in
/-- A tree of the same session was made as one of the trees. -/
theorem Same.exists_fresh_eq {w w' : Session α ω} (h : w.Same w') {n' : Node α}
    (hn' : n' ∈ w'.roots) : ∃ n ∈ w.roots, n.fresh = n'.fresh := by
  have hmem := List.mem_map_of_mem (f := Node.fresh) hn'
  rw [h.roots_eq] at hmem
  exact List.mem_map.1 hmem

omit [Scalar α] in
/-- The trees of the same session consist of the same parts. -/
theorem Same.among {us : List (Node α)} {w w' : Session α ω} (h : w.Same w')
    (hamong : ∀ n ∈ w.roots, n.Among us) : ∀ n ∈ w'.roots, n.Among us := by
  intro n' hn'
  obtain ⟨n, hn, hfresh⟩ := h.exists_fresh_eq hn'
  exact (hamong n hn).of_fresh_eq hfresh

omit [Scalar α] in
/-- Sessions that are the same as a third are the same. -/
theorem Same.trans {w w' w'' : Session α ω} (h : w.Same w') (h' : w'.Same w'') : w.Same w'' :=
  ⟨h'.trees_eq.trans h.trees_eq, h'.scenes_eq.trans h.scenes_eq⟩

/-- A list with one element changed to one of the same image has the same images. -/
theorem map_set_of_eq {β γ : Type} {f : β → γ} {xs : List β} {i : Nat} {x y : β}
    (hx : xs[i]? = some x) (h : f y = f x) : (xs.set i y).map f = xs.map f := by
  obtain ⟨hi, rfl⟩ := List.getElem?_eq_some_iff.1 hx
  rw [List.map_set, h, ← List.map_set, List.set_getElem_self]

omit [Scalar α] in
/-- The roots are the trees and those of the scenes. -/
theorem forall_mem_roots {w : Session α ω} {P : Node α → Prop} :
    (∀ n ∈ w.roots, P n) ↔
      (∀ n ∈ w.trees, P n) ∧ ∀ scene ∈ w.scenes, ∀ n ∈ scene.roots, P n := by
  rw [roots, List.forall_mem_append, List.forall_mem_flatMap]

omit [Scalar α] in
/-- What holds of all elements of a list and of another in place of one holds of all. -/
theorem forall_mem_set {β : Type} {P : β → Prop} {xs : List β} (h : ∀ x ∈ xs, P x) (i : Nat) {y : β}
    (hy : P y) : ∀ x ∈ xs.set i y, P x := by
  intro x hx
  rcases List.mem_or_eq_of_mem_set hx with hx | rfl
  · exact h x hx
  · exact hy

/-- The same session is sound if its cache is coherent and its trees are right. -/
theorem Sound.of_same {us : List (Node α)} {w w' : Session α ω} (h : w.Sound us)
    (hsame : w.Same w') (hcache : w'.cache.Coherent us) (hright : ∀ n ∈ w'.roots, n.Right) :
    w'.Sound us where
  coherent := hcache
  among := hsame.among h.among
  right := hright

/-! ## Calls -/

/-- The trees that a call is for. -/
def called (w : Session α ω) : Call → List (Node α)
  | .tree i _ => w.trees[i]?.toList
  | .scene i _ => w.scenes[i]?.toList.flatMap (·.roots)

omit [Scalar α] in
/-- The trees that a call is for are among all trees. -/
theorem mem_roots_of_mem_called {w : Session α ω} {c : Call} {n : Node α} (hn : n ∈ w.called c) :
    n ∈ w.roots := by
  cases c with
  | tree i probe => exact List.mem_append_left _ (List.mem_of_getElem? (Option.mem_toList.1 hn))
  | scene i probe =>
    obtain ⟨scene, hscene, hn⟩ := List.mem_flatMap.1 hn
    have hmem := List.mem_of_getElem? (Option.mem_toList.1 hscene)
    exact List.mem_append_right _ (List.mem_flatMap.2 ⟨scene, hmem, hn⟩)

/-- A call that comes to the end leaves finished what it was for. -/
theorem finishedFor_of_call {w w' : Session α ω} {c : Call} (h : w.call c = .ok (true, w')) :
    w'.FinishedFor c := by
  cases c with
  | tree i probe =>
    rw [call] at h
    split at h
    · cases h
    · next n hi =>
      obtain ⟨⟨done, n', s⟩, hbuild, h⟩ := bind_eq_ok_iff.1 h
      cases h
      obtain ⟨hlt, -⟩ := List.getElem?_eq_some_iff.1 hi
      exact ⟨n', List.getElem?_set_self hlt, Node.finished_of_build hbuild⟩
  | scene i probe =>
    rw [call] at h
    split at h
    · cases h
    · next scene hi =>
      rw [Scene.build, bind_assoc] at h
      obtain ⟨⟨done, ns, s⟩, hbuild, h⟩ := bind_eq_ok_iff.1 h
      cases h
      obtain ⟨hlt, -⟩ := List.getElem?_eq_some_iff.1 hi
      exact ⟨_, List.getElem?_set_self hlt, (Node.allEnd_of_buildAll hbuild).forall_mem rfl
        fun _ _ _ _ _ => Node.finished_of_build⟩

/-- What builds of the trees keep of the cache a call keeps, and it leaves of the trees what their
    builds do. -/
theorem call_rule (keeps : Cache α ω → Prop) (fault : Node α → Prop) {good : Node α → Prop}
    {w : Session α ω} (hcache : keeps w.cache) (hgood : ∀ n ∈ w.roots, good n)
    (hbuild : ∀ n ∈ w.roots, ∀ (probe : Nat → Bool) (s : Site α ω), keeps s.cache →
      Outcome (n.build probe s) (fault n) fun r =>
        keeps r.2.2.cache ∧ r.2.1.fresh = n.fresh ∧ good r.2.1) (c : Call) :
    Outcome (w.call c) (∃ n ∈ w.called c, fault n) fun r =>
      keeps r.2.cache ∧ w.Same r.2 ∧ ∀ n ∈ r.2.roots, good n := by
  obtain ⟨htrees, hscenes⟩ := forall_mem_roots.1 hgood
  cases c with
  | tree i probe =>
    rw [call, called]
    split
    · exact ⟨hcache, ⟨rfl, rfl⟩, hgood⟩
    · next n hi =>
      rw [hi]
      have hn : n ∈ w.roots := List.mem_append_left _ (List.mem_of_getElem? hi)
      refine (hbuild n hn probe { cache := w.cache } hcache).bind
        (fun hf => ⟨n, List.mem_cons_self, hf⟩) ?_
      rintro ⟨done, n', s⟩ ⟨hcache', hfresh, hn'⟩
      exact ⟨hcache', ⟨map_set_of_eq hi hfresh, rfl⟩,
        forall_mem_roots.2 ⟨forall_mem_set htrees i hn', hscenes⟩⟩
  | scene i probe =>
    rw [call, called]
    split
    · exact ⟨hcache, ⟨rfl, rfl⟩, hgood⟩
    · next scene hi =>
      have hmem : scene ∈ w.scenes := List.mem_of_getElem? hi
      have hroots (n : Node α) (hn : n ∈ scene.roots) : n ∈ w.roots :=
        List.mem_append_right _ (List.mem_flatMap.2 ⟨scene, hmem, hn⟩)
      rw [hi, Option.toList_some, List.flatMap_singleton, Scene.build, bind_assoc]
      refine (Node.buildAll_good (s := { cache := w.cache }) keeps fault (fun _ => True) good hcache
        (hscenes scene hmem) fun n hn s hs => (hbuild n (hroots n hn) probe s hs).imp id
          fun r hr => ⟨hr.1, hr.2, fun _ => trivial⟩).bind id ?_
      rintro ⟨done, ns, s⟩ ⟨hcache', ⟨hfresh, hns⟩, -⟩
      exact ⟨hcache', ⟨rfl, map_set_of_eq hi hfresh⟩,
        forall_mem_roots.2 ⟨htrees, forall_mem_set hscenes i hns⟩⟩

section Sound

variable {us : List (Node α)} (hus : Node.MeshByKey us) {w : Session α ω} (h : w.Sound us)
include hus h

/-- A call keeps a session sound. Where it comes to the end, what it was for is finished. It faults
    only if a tree cannot be built alone. -/
theorem call_outcome (c : Call) :
    Outcome (w.call c) (∃ n ∈ w.roots, ∃ e, n.alone = .error e) fun r =>
      r.2.Sound us ∧ w.Same r.2 ∧ (r.1 = true → r.2.FinishedFor c) := by
  have hrule := call_rule (fun cache => cache.Coherent us) (fun n => ∃ e, n.alone = .error e)
    h.coherent h.right (fun n hn probe s hs =>
      (Node.build_leads hus (h.among n hn) (h.right n hn) hs).imp id
        fun r ⟨hcache, hn', _⟩ => ⟨hcache, hn'⟩) c
  cases hc : w.call c with
  | error e =>
    rw [hc] at hrule
    obtain ⟨n, hn, hf⟩ := hrule
    exact ⟨n, mem_roots_of_mem_called hn, hf⟩
  | ok r =>
    rw [hc] at hrule
    obtain ⟨hcache, hsame, hright⟩ := hrule
    obtain ⟨done, w'⟩ := r
    refine ⟨h.of_same hsame hcache hright, hsame, ?_⟩
    rintro rfl
    exact finishedFor_of_call hc

/-- Calls keep a session sound. -/
theorem after_sound {cs : List Call} {w' : Session α ω} (hrun : w.after cs = .ok w') :
    w'.Sound us ∧ w.Same w' := by
  induction cs generalizing w with
  | nil =>
    cases hrun
    exact ⟨h, rfl, rfl⟩
  | cons c cs ih =>
    rw [after] at hrun
    obtain ⟨⟨done, w''⟩, hc, hrun⟩ := bind_eq_ok_iff.1 hrun
    obtain ⟨hsound, hsame, _⟩ := (call_outcome hus h c).of_ok hc
    obtain ⟨hsound', hsame'⟩ := ih hsound hrun
    exact ⟨hsound', hsame.trans hsame'⟩

end Sound

/-- A session of trees that were only made starts sound. -/
theorem sound_of_fresh {w : Session α ω} {limit : Nat} (hcache : w.cache = .new limit)
    {ns : List (Node α)} (hroots : w.roots = ns) (hfresh : ∀ n ∈ ns, n.fresh = n) :
    w.Sound (Node.partsOfAll ns) where
  coherent := hcache ▸ Cache.coherent_new limit _
  among := hroots.symm ▸ Node.among_of_fresh hfresh
  right n hn := by
    rw [hroots] at hn
    exact hfresh n hn ▸ n.right_fresh

/-! ## Transparency -/

/-- The trees are as they were made, and their keys tell their parts apart. -/
structure Told [KeyDigest] (ns : List (Node α)) : Prop where
  made : ∀ n ∈ ns, n.Made
  /-- No part is built. -/
  fresh_eq : ∀ n ∈ ns, n.fresh = n
  fits : ∀ n ∈ ns, n.Fits
  /-- The digest confuses no two parts. -/
  collisionFree : Node.CollisionFree (Node.partsOfAll ns)
  /-- Parts that are alike do not differ in the sign of a zero or in which `NaN` stands where. -/
  unnamed_eq : ∀ p ∈ Node.partsOfAll ns, ∀ q ∈ Node.partsOfAll ns,
    p.Alike q → p.unnamed = q.unnamed

section Told

variable [KeyDigest] {ns : List (Node α)} (h : Told ns)
include h

/-- Parts of one key differ in names alone. -/
theorem Told.meshByKey : Node.MeshByKey (Node.partsOfAll ns) := by
  intro p hp q hq hkey
  exact h.unnamed_eq p hp q hq
    ((h.collisionFree.key_eq_iff_alike (Node.within_partsOfAll h.made h.fits hp)
      (Node.within_partsOfAll h.made h.fits hq)).1 hkey)

/-- A session of such trees starts sound. -/
theorem Told.sound {w : Session α ω} {limit : Nat} (hcache : w.cache = .new limit)
    (hroots : w.roots = ns) : w.Sound (Node.partsOfAll ns) :=
  sound_of_fresh hcache hroots h.fresh_eq

end Told

section Sound

variable {us : List (Node α)} {w : Session α ω} (h : w.Sound us)
include h

/-- A built part of a sound session has the mesh that it gets alone. -/
theorem Sound.mesh?_eq {p : Node α} (hp : p ∈ Node.partsOfAll w.roots)
    (hbuilt : p.isBuilt = true) : ∃ b, p.alone = .ok b ∧ p.mesh? = b.mesh? := by
  obtain ⟨n, hn, hp⟩ := Node.mem_partsOfAll.1 hp
  obtain ⟨b, hb, hmesh⟩ := (h.right n hn p hp).mesh_eq hbuilt
  obtain ⟨bs, _, mesh, _, rfl⟩ := Node.alone_eq_ok_iff.1 hb
  refine ⟨_, hb, ?_⟩
  rw [Node.mesh?, if_pos hbuilt, hmesh]
  rfl

/-- A finished tree of a sound session looks as if it was built alone. -/
theorem Sound.looksLike_tree {w₀ : Session α ω} (hsame : w₀.Same w) {i : Nat} {n : Node α}
    (hn : w.trees[i]? = some n) (hfin : n.Finished) :
    ∃ t b, w₀.trees[i]? = some t ∧ t.alone = .ok b ∧ n.LooksLike b := by
  have hfresh : (w₀.trees[i]?).map Node.fresh = some n.fresh := by
    rw [← List.getElem?_map, ← hsame.trees_eq, List.getElem?_map, hn, Option.map_some]
  obtain ⟨t, ht, hfresh⟩ := Option.map_eq_some_iff.1 hfresh
  have hmem : n ∈ w.roots := List.mem_append_left _ (List.mem_of_getElem? hn)
  obtain ⟨b, hb, hlooks⟩ := hfin.looksLike_alone (h.right n hmem)
  exact ⟨t, b, ht, (Node.alone_congr hfresh).trans hb, hlooks⟩

/-- The finished trees of a scene of a sound session look as if they were built alone. -/
theorem Sound.looksLike_scene {w₀ : Session α ω} (hsame : w₀.Same w) {i : Nat} {scene : Scene α}
    (hscene : w.scenes[i]? = some scene) (hfin : ∀ n ∈ scene.roots, n.Finished) :
    ∃ t bs, w₀.scenes[i]? = some t ∧ Node.aloneAll t.roots = .ok bs ∧
      List.Forall₂ Node.LooksLike scene.roots bs := by
  have hfresh : (w₀.scenes[i]?).map (fun scene => scene.roots.map Node.fresh) =
      some (scene.roots.map Node.fresh) := by
    rw [← List.getElem?_map, ← hsame.scenes_eq, List.getElem?_map, hscene, Option.map_some]
  obtain ⟨t, ht, hfresh⟩ := Option.map_eq_some_iff.1 hfresh
  have hmem (n : Node α) (hn : n ∈ scene.roots) : n ∈ w.roots :=
    List.mem_append_right _ (List.mem_flatMap.2 ⟨scene, List.mem_of_getElem? hscene, hn⟩)
  obtain ⟨bs, hbs, hlooks⟩ :=
    Node.exists_aloneAll fun n hn => (hfin n hn).looksLike_alone (h.right n (hmem n hn))
  exact ⟨t, bs, ht, (Node.aloneAll_congr hfresh).trans hbs, hlooks⟩

end Sound

/-- Whatever trees and scenes are built through one cache of any limit, in any order, to the end or
    not, every part that is built has the mesh that it gets alone. A tree whose build came to the
    end draws what it draws when it is built alone, and so does a scene. Calls fault only if a tree
    cannot be built alone. -/
theorem transparent [KeyDigest] {limit : Nat} {trees : List (Node α)} {scenes : List (Scene α)}
    (h : Told (trees ++ scenes.flatMap (·.roots))) {calls : List Call} {w : Session α ω}
    (hrun : (start limit trees scenes).after calls = .ok w) :
    (start limit trees scenes).Same w ∧
      (∀ p ∈ Node.partsOfAll w.roots, p.isBuilt = true →
        ∃ b, p.alone = .ok b ∧ p.mesh? = b.mesh?) ∧
      (∀ i probe w', w.call (.tree i probe) = .ok (true, w') →
        ∃ t n b, trees[i]? = some t ∧ w'.trees[i]? = some n ∧ t.alone = .ok b ∧
          n.flattened = b.flattened ∧ n.polygonCount = b.polygonCount ∧ n.bounds = b.bounds) ∧
      (∀ i probe w', w.call (.scene i probe) = .ok (true, w') →
        ∃ t n bs, scenes[i]? = some t ∧ w'.scenes[i]? = some n ∧
          Node.aloneAll t.roots = .ok bs ∧ n.merged = Scene.merged { t with roots := bs } ∧
          n.polygonCount = Scene.polygonCount { t with roots := bs } ∧
          n.bounds = Scene.bounds { t with roots := bs }) ∧
      ((∀ n ∈ trees ++ scenes.flatMap (·.roots), ∃ b, n.alone = .ok b) →
        ∀ c, ∃ r, w.call c = .ok r) := by
  have hus := h.meshByKey
  obtain ⟨hsound, hsame⟩ := after_sound hus (h.sound rfl rfl) hrun
  refine ⟨hsame, fun p => hsound.mesh?_eq, fun i probe w' hcall => ?_, fun i probe w' hcall => ?_,
    fun halone c => ?_⟩
  · obtain ⟨hsound', hsame', hfin⟩ := (call_outcome hus hsound _).of_ok hcall
    obtain ⟨n, hn, hfin⟩ := hfin rfl
    obtain ⟨t, b, ht, hb, hlooks⟩ := hsound'.looksLike_tree (hsame.trans hsame') hn hfin
    exact ⟨t, n, b, ht, hn, hb, hlooks.flattened_eq, hlooks.polygonCount_eq, hlooks.bounds_eq⟩
  · obtain ⟨hsound', hsame', hfin⟩ := (call_outcome hus hsound _).of_ok hcall
    obtain ⟨n, hn, hfin⟩ := hfin rfl
    obtain ⟨t, bs, ht, hbs, hlooks⟩ := hsound'.looksLike_scene (hsame.trans hsame') hn hfin
    exact ⟨t, n, bs, ht, hn, hbs, Node.mergeFlattened_congr hlooks _,
      Node.polygonCountAll_congr hlooks, Node.unionBounds_congr hlooks _⟩
  · have houtcome := call_outcome hus hsound c
    cases hc : w.call c with
    | ok r => exact ⟨r, rfl⟩
    | error e =>
      rw [hc] at houtcome
      obtain ⟨n, hn, e', he⟩ := houtcome
      obtain ⟨t, ht, hfresh⟩ := hsame.exists_fresh_eq hn
      obtain ⟨b, hb⟩ := halone t ht
      rw [Node.alone_congr hfresh, he] at hb
      cases hb

/-! ## A group and a cube -/

/-- A cube that was read from a record. -/
def readCube [KeyDigest] (name : Option String) : Node Float :=
  .make .cube .identity .default name none []

/-- A group of a cube that was read from a record. -/
def readGroup [KeyDigest] : Node Float :=
  .make .group .identity .default none none [readCube none]

section Mixing

local instance : KeyDigest := .mixing

/-- Keys tell the parts of a group of a cube and another cube apart, but for the two cubes. -/
theorem told_readGroup : Told [readGroup, readCube (some "lid")] where
  made := by
    have hcube (name : Option String) : (readCube name).Made :=
      .read _ _ _ _ _ fun _ hc => absurd hc List.not_mem_nil
    have hgroup : readGroup.Made :=
      .read _ _ _ _ _ (List.forall_mem_singleton.2 (hcube none))
    exact List.forall_mem_cons.2 ⟨hgroup, List.forall_mem_singleton.2 (hcube _)⟩
  fresh_eq := List.forall_mem_cons.2 ⟨rfl, List.forall_mem_singleton.2 rfl⟩
  fits := by decide +kernel
  collisionFree := by decide +kernel
  unnamed_eq := by
    have hparts : Node.partsOfAll [readGroup, readCube (some "lid")] =
        [readGroup, readCube none, readCube (some "lid")] := rfl
    rw [hparts]
    intro p hp q hq halike
    have hkind := (Node.alike_iff.1 halike).1
    simp only [List.mem_cons, List.not_mem_nil, or_false] at hp hq
    rcases hp with rfl | rfl | rfl <;> rcases hq with rfl | rfl | rfl <;> first
      | rfl
      | exact hkind.elim

/-- The group, a scene of the other cube, and a cache too small for a cube. -/
def readSession : Session Float Unit :=
  start 1000 [readGroup] [{ roots := [readCube (some "lid")] }]

/-- The build of the group is interrupted, the scene is built, and then the group. -/
def readCalls : List Call :=
  [.tree 0 fun _ => true, .scene 0 fun _ => false, .tree 0 fun _ => false]

/-- The group and the scene end built, with the meshes that their parts get alone. -/
theorem transparent_readSession : ∃ w, readSession.after readCalls = .ok w ∧
    (∀ p ∈ Node.partsOfAll w.roots, p.isBuilt = true) ∧
    ∀ p ∈ Node.partsOfAll w.roots, ∃ b, p.alone = .ok b ∧ p.mesh? = b.mesh? := by
  have hbuilt : (match readSession.after readCalls with
      | .ok w => (Node.partsOfAll w.roots).all Node.isBuilt
      | .error _ => false) = true := by decide +kernel
  cases hrun : readSession.after readCalls with
  | ok w =>
    rw [hrun] at hbuilt
    have hall := List.all_eq_true.1 hbuilt
    obtain ⟨_, hmesh, _⟩ := transparent told_readGroup hrun
    exact ⟨w, rfl, hall, fun p hp => hmesh p hp (hall p hp)⟩
  | error e =>
    rw [hrun] at hbuilt
    cases hbuilt

end Mixing

end Session

end Solids
