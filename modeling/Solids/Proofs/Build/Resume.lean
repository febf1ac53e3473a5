import Solids.Proofs.Build.Cancellation
import Solids.Proofs.Build.Complete
import Solids.Proofs.Cache.Misses
import Solids.Proofs.Key.Unambiguous

/-!
# Builds that go on

A tree that a build left unfinished is built on by the next. However often this happens, and
wherever the builds are stopped, the last build leaves what a single build would have left
(`Resumes`, `resumes_of_collisionFree`): the same tree, and the same cache but for the count of
misses, since every interrupted part is looked up again.

The step is `Node.matches_left`: a build of what a build left matches the build from the start.
A part that was interrupted is not found the second time either, as what was stored since then has
the keys of parts below it. This takes keys that tell a part from those below it
(`Node.Separate`).
-/

namespace Solids

variable {α ω β γ : Type}

open Cache (MoreMisses)

/-! ## Looking up a part -/

/-- A part is found in a cache whatever the misses are. -/
theorem lookup_moreMisses {s s' : Site α ω} (h : MoreMisses s.cache s'.cache) (n : Node α) :
    (s'.lookup n).1 = (s.lookup n).1 ∧ MoreMisses (s.lookup n).2.cache (s'.lookup n).2.cache := by
  obtain ⟨k, hk⟩ := h
  rw [Site.lookup, Site.lookup]
  split
  · rw [hk, Cache.lookup_missed]
    exact ⟨rfl, k, rfl⟩
  · exact ⟨rfl, k, hk⟩

/-- A part is not found exactly if its kind has no mesh or there is none under its key. -/
theorem lookup_eq_none_iff {s : Site α ω} {n : Node α} :
    (s.lookup n).1 = none ↔ (n.kind.hasOwnMesh = true → s.cache.mesh? n.key = none) := by
  rw [Site.lookup]
  split
  · next hown =>
    rw [← s.cache.lookup_fst]
    exact ⟨fun h _ => h, fun h => h hown⟩
  · next hplain => exact ⟨fun _ h => absurd h hplain, fun _ => rfl⟩

/-- A part that is not found counts as a miss at most. -/
theorem moreMisses_of_lookup {s : Site α ω} {n : Node α} (h : (s.lookup n).1 = none) :
    MoreMisses s.cache (s.lookup n).2.cache := by
  rw [Site.lookup] at h ⊢
  split at h
  · next hown =>
    rw [if_pos hown]
    rw [s.cache.lookup_fst] at h
    refine ⟨1, ?_⟩
    dsimp only
    rw [Cache.lookup, h]
    rfl
  · next hplain =>
    rw [if_neg hplain]
    exact .refl _

/-! ## Builds that match -/

/-- Two builds match if both fault, in one way, or both come to the end or neither, with one
    outcome and one cache, in which the second may have counted more misses. -/
inductive Matches : Except Fault (Bool × β × Site α ω) → Except Fault (Bool × β × Site α ω) → Prop
  | ok (done : Bool) (z : β) {s s' : Site α ω} :
      MoreMisses s.cache s'.cache → Matches (.ok (done, z, s)) (.ok (done, z, s'))
  | error (e : Fault) : Matches (.error e) (.error e)

namespace Matches

/-- A build matches itself. -/
theorem refl (x : Except Fault (Bool × β × Site α ω)) : Matches x x := by
  cases x with
  | ok r => exact .ok r.1 r.2.1 (.refl _)
  | error e => exact .error e

/-- Builds that match a third match. -/
theorem trans {x y z : Except Fault (Bool × β × Site α ω)} (h : Matches x y) (h' : Matches y z) :
    Matches x z := by
  cases h with
  | ok done w hs =>
    cases h' with
    | ok _ _ hs' => exact .ok done w (hs.trans hs')
  | error e => exact h'

/-- What follows builds that match matches, if it does from any caches that differ in misses. -/
theorem bind {x y : Except Fault (Bool × β × Site α ω)}
    {f g : Bool × β × Site α ω → Except Fault (Bool × γ × Site α ω)} (h : Matches x y)
    (hfg : ∀ done z s s', MoreMisses s.cache s'.cache →
      Matches (f (done, z, s)) (g (done, z, s'))) :
    Matches (x >>= f) (y >>= g) := by
  cases h with
  | ok done z hs => exact hfg done z _ _ hs
  | error e => exact .error e

end Matches

variable [Scalar α] {probe : Nat → Bool}

namespace Node

/-- A part is finished alike whatever the misses are. -/
theorem matches_finish (n : Node α) {s s' : Site α ω} (h : MoreMisses s.cache s'.cache) :
    Matches (do let (n, s) ← s.finish n; return (true, n, s))
      (do let (n, s) ← s'.finish n; return (true, n, s)) := by
  rw [Site.finish, Site.finish]
  split
  · cases n.kind.construct n.children with
    | error e => exact .error e
    | ok m => exact .ok true _ (h.store n.key m)
  · exact .ok true _ h

/-! ## Builds that nothing stops -/

/-- A build that nothing stops comes to the first part, and then to the others. -/
theorem buildAll_never_cons (n : Node α) (ns : List (Node α)) (s : Site α ω) :
    buildAll never (n :: ns) s = do
      let (done, n, s) ← n.build never { s with polls := s.polls + 1 }
      if done then
        let (done, ns, s) ← buildAll never ns s
        return (done, n :: ns, s)
      else return (false, n :: ns, s) := by
  rw [buildAll]
  rfl

/-- Builds of parts match whatever the misses are if those of each part do. -/
theorem matches_buildAll_of {ns : List (Node α)}
    (h : ∀ n ∈ ns, ∀ s s' : Site α ω, MoreMisses s.cache s'.cache →
      Matches (n.build never s) (n.build never s')) {s s' : Site α ω}
    (hs : MoreMisses s.cache s'.cache) : Matches (buildAll never ns s) (buildAll never ns s') := by
  induction ns generalizing s s' with
  | nil =>
    rw [buildAll, buildAll]
    exact .ok true [] hs
  | cons n ns ih =>
    obtain ⟨hn, hns⟩ := List.forall_mem_cons.1 h
    rw [buildAll_never_cons, buildAll_never_cons]
    have hhead := hn { s with polls := s.polls + 1 } { s' with polls := s'.polls + 1 } hs
    refine hhead.bind fun done n' s s' hs => ?_
    cases done with
    | false => exact .ok false _ hs
    | true => exact (ih hns hs).bind fun done ns' s s' hs => .ok done _ hs

/-- Builds of a tree match whatever the misses are. -/
theorem matches_build (n : Node α) {s s' : Site α ω} (hs : MoreMisses s.cache s'.cache) :
    Matches (n.build never s) (n.build never s') := by
  induction n using induction generalizing s s' with
  | step n ih =>
    have hall {s s' : Site α ω} (hs : MoreMisses s.cache s'.cache) :=
      matches_buildAll_of (fun c hc s s' hs => ih c hc hs) hs
    have hdrawn (n' : Node α) (hchildren : n'.children = n.children) {s s' : Site α ω}
        (hs : MoreMisses s.cache s'.cache) :
        Matches (n'.buildDrawn never s) (n'.buildDrawn never s') := by
      rw [buildDrawn, buildDrawn, hchildren]
      split
      · exact (hall hs).bind fun done cs s s' hs => .ok done _ hs
      · exact .ok true n' hs
    obtain ⟨hfound, hlookup⟩ := lookup_moreMisses hs n
    rw [build_eq, build_eq, hfound]
    split_ifs
    · exact hdrawn n rfl hs
    · exact hdrawn { n with mesh := _, state := _ } rfl hlookup
    · refine (hall hlookup).bind fun done cs s s' hs => ?_
      cases done with
      | false => exact .ok false _ hs
      | true => exact matches_finish _ hs

/-- Builds of trees match whatever the misses are. -/
theorem matches_buildAll (ns : List (Node α)) {s s' : Site α ω} (hs : MoreMisses s.cache s'.cache) :
    Matches (buildAll never ns s) (buildAll never ns s') :=
  matches_buildAll_of (fun n _ _ _ hs => n.matches_build hs) hs

/-- A build that came to the end is the build that nothing stops. -/
theorem build_never_of_done {n n' : Node α} {s s' : Site α ω}
    (h : n.build probe s = .ok (true, n', s')) : n.build never s = .ok (true, n', s') := by
  rw [← h]
  refine (build_eq_never fun r hr => ?_).symm
  rw [h] at hr
  cases hr

/-- A build of a finished tree that nothing stops leaves it and the cache as they are. -/
theorem build_never_of_finished {n : Node α} (h : n.Finished) (s : Site α ω) :
    ∃ polls, n.build never s = .ok (true, n, { s with polls }) := by
  have hidle : Idle never n s (n.build never s) := idle_build h s
  obtain ⟨done, polls, hb, _, hdone⟩ := hidle
  obtain rfl : done = true := hdone fun _ _ _ => rfl
  exact ⟨polls, hb⟩

/-! ## Builds of what builds left -/

/-- No part of the tree has the key of one below it. -/
def Separate (n : Node α) : Prop := ∀ p ∈ n.parts, ∀ q ∈ p.descendants, q.key ≠ p.key

omit [Scalar α] in
/-- A tree is separate if its root is and its children are. -/
theorem separate_iff {n : Node α} :
    n.Separate ↔ (∀ q ∈ n.descendants, q.key ≠ n.key) ∧ ∀ c ∈ n.children, c.Separate :=
  forall_mem_parts

omit [Scalar α] in
/-- How far the parts are built has nothing to do with how keys differ. -/
theorem separate_fresh {n : Node α} : n.fresh.Separate ↔ n.Separate := by
  rw [Separate, parts_fresh, List.forall_mem_map]
  refine forall₂_congr fun p _ => ?_
  have hbelow : p.fresh.descendants = p.descendants.map fresh := by
    have hparts := p.parts_fresh
    rw [parts_eq, parts_eq, List.map_cons] at hparts
    exact (List.cons.inj hparts).2
  rw [hbelow, List.forall_mem_map]
  exact forall₂_congr fun q _ => by rw [fresh_key, fresh_key]

/-- A build brings in no mesh under a key that no part has. -/
theorem mesh?_eq_none_of_build {k : CacheKey} {n n' : Node α} {s s' : Site α ω} {done : Bool}
    (hk : ∀ p ∈ n.parts, p.key ≠ k) (h : n.build probe s = .ok (done, n', s'))
    (hs : s.cache.mesh? k = none) : s'.cache.mesh? k = none := by
  induction n using induction generalizing s done n' s' with
  | step n ih =>
    obtain ⟨hself, hchildren⟩ := forall_mem_parts.1 hk
    have hall {s s' : Site α ω} {done : Bool} {cs : List (Node α)}
        (h : buildAll probe n.children s = .ok (done, cs, s')) (hs : s.cache.mesh? k = none) :
        s'.cache.mesh? k = none :=
      (allEnd_of_buildAll h).cache (I := fun c => c.mesh? k = none) hs
        fun c hc _ _ _ _ hb hs => ih c hc (hchildren c hc) hb hs
    have hdrawn {r n' : Node α} {s s' : Site α ω} {done : Bool} (hcs : r.children = n.children)
        (h : DrawnEnds probe r s done n' s') (hs : s.cache.mesh? k = none) :
        s'.cache.mesh? k = none := by
      cases h with
      | plain _ => exact hs
      | drawn _ h => exact hall (hcs ▸ h) hs
    have hlookup : (s.lookup n).2.cache.mesh? k = none := (mesh?_lookup s n k).trans hs
    cases ends_of_build h with
    | built _ h => exact hdrawn rfl h hs
    | @found _ _ _ m _ _ h =>
      exact hdrawn (r := { n with mesh := some m, state := .built }) rfl h hlookup
    | stopped _ _ hcs => exact hall hcs hlookup
    | finished _ _ hcs hfin =>
      have hs' := hall hcs hlookup
      cases hfin with
      | @constructed m _ _ => exact Cache.mesh?_store_of_ne m hself hs'
      | plain _ => exact hs'

/-- A part that was not found has no mesh under its key after the build of its children, either, if
    none of the parts below has that key. -/
theorem mesh?_eq_none_of_buildAll {n : Node α} {s s' : Site α ω} {done : Bool} {cs : List (Node α)}
    (hn : ∀ q ∈ n.descendants, q.key ≠ n.key) (hown : n.kind.hasOwnMesh = true)
    (hnone : (s.lookup n).1 = none)
    (hcs : buildAll probe n.children (s.lookup n).2 = .ok (done, cs, s')) :
    s'.cache.mesh? n.key = none := by
  have hs : (s.lookup n).2.cache.mesh? n.key = none :=
    (mesh?_lookup s n n.key).trans (lookup_eq_none_iff.1 hnone hown)
  exact (allEnd_of_buildAll hcs).cache (I := fun c => c.mesh? n.key = none) hs
    fun c hc _ _ _ _ hb => mesh?_eq_none_of_build
      (fun p hp => hn p (mem_partsOfAll.2 ⟨c, hc, hp⟩)) hb

/-- A build of parts that nothing stops matches that of what a build left of them, if this holds
    of every part whose build was interrupted. -/
theorem AllEnd.matches_left {ns ns' : List (Node α)} {s s' : Site α ω} {done : Bool}
    (h : AllEnd probe ns s done ns' s')
    (hns : ∀ n ∈ ns, ∀ (s : Site α ω) n' s', n.build probe s = .ok (false, n', s') →
      Matches (n.build never s) (n'.build never s')) :
    Matches (buildAll never ns s) (buildAll never ns' s') := by
  induction h with
  | nil s => exact .refl _
  | stop _ => exact matches_buildAll _ (.refl _)
  | @inside n n' ns s s' _ hn =>
    have hhead : Matches (n.build never { s with polls := s.polls + 1 })
        (n'.build never { s' with polls := s'.polls + 1 }) :=
      (hns n List.mem_cons_self _ n' s' hn).trans (n'.matches_build (.refl _))
    rw [buildAll_never_cons, buildAll_never_cons]
    refine hhead.bind fun done n' s s' hs => ?_
    cases done with
    | false => exact .ok false _ hs
    | true => exact (matches_buildAll ns hs).bind fun done ns' s s' hs => .ok done _ hs
  | @next n n' ns ns' s s' s'' done _ hn _ ih =>
    -- The first part is done, and so is left alone the second time.
    obtain ⟨polls, hagain⟩ :=
      build_never_of_finished (finished_of_build hn) { s'' with polls := s''.polls + 1 }
    have htail : Matches (buildAll never ns s') (buildAll never ns' { s'' with polls }) :=
      (ih (List.forall_mem_cons.1 hns).2).trans (matches_buildAll ns' (.refl _))
    rw [buildAll_never_cons, buildAll_never_cons, build_never_of_done hn, hagain]
    exact htail.bind fun done ns' s s' hs => .ok done _ hs

/-- A build that nothing stops matches that of what a build left. -/
theorem matches_left {n n' : Node α} {s s' : Site α ω} {done : Bool} (hn : n.Separate)
    (h : n.build probe s = .ok (done, n', s')) :
    Matches (n.build never s) (n'.build never s') := by
  induction n using induction generalizing s done n' s' with
  | step n ih =>
    obtain ⟨hself, hchildren⟩ := separate_iff.1 hn
    have hall {s s' : Site α ω} {done : Bool} {cs : List (Node α)}
        (h : buildAll probe n.children s = .ok (done, cs, s')) :
        Matches (buildAll never n.children s) (buildAll never cs s') :=
      (allEnd_of_buildAll h).matches_left fun c hc _ _ _ hb => ih c hc (hchildren c hc) hb
    have hdrawn {r n' : Node α} {s s' : Site α ω} {done : Bool} (hcs : r.children = n.children)
        (hbuilt : r.isBuilt = true) (h : DrawnEnds probe r s done n' s') :
        Matches (r.build never s) (n'.build never s') := by
      cases h with
      | plain _ => exact .refl _
      | @drawn _ _ cs hrenders h =>
        have hbuilt' : isBuilt { r with children := cs } = true := hbuilt
        rw [build_of_built hbuilt, build_of_built hbuilt', buildDrawn, buildDrawn, if_pos hrenders,
          if_pos hrenders, hcs]
        exact (hall (hcs ▸ h)).bind fun done cs s s' hs => .ok done _ hs
    cases ends_of_build h with
    | built hbuilt h => exact hdrawn rfl hbuilt h
    | @found _ _ _ m hunbuilt hm h =>
      -- From here on the part is a built one.
      have hbuilt : isBuilt { n with mesh := some m, state := .built } = true := rfl
      rw [build_of_found hunbuilt hm, ← build_of_built hbuilt]
      exact hdrawn rfl hbuilt h
    | @stopped s' cs hunbuilt hnone hcs =>
      -- The part is not found the second time, either.
      have hagain : (s'.lookup n).1 = none :=
        lookup_eq_none_iff.2 fun hown => mesh?_eq_none_of_buildAll hself hown hnone hcs
      have hmatch : Matches (buildAll never n.children (s.lookup n).2)
          (buildAll never cs (s'.lookup n).2) :=
        (hall hcs).trans (matches_buildAll cs (moreMisses_of_lookup hagain))
      rw [build_of_missed hunbuilt hnone,
        build_of_missed (n := { n with state := .unbuilt, children := cs }) rfl hagain]
      refine hmatch.bind fun done cs s s' hs => ?_
      cases done with
      | false => exact .ok false _ hs
      | true => exact matches_finish _ hs
    | finished _ _ _ _ =>
      obtain ⟨polls, hagain⟩ := build_never_of_finished (finished_of_build h) s'
      rw [build_never_of_done h, hagain]
      exact .ok true _ (.refl _)

/-- A build leaves a tree separate. -/
theorem Separate.of_build {n n' : Node α} {s s' : Site α ω} {done : Bool} (hn : n.Separate)
    (h : n.build probe s = .ok (done, n', s')) : n'.Separate := by
  rw [← separate_fresh, ((build_fresh _ _).of_ok h :)]
  exact separate_fresh.2 hn

/-- A tree that was made is separate if the digest confuses none of its parts. -/
theorem CollisionFree.separate [KeyDigest] {n : Node α} (h : CollisionFree n.parts)
    (hmade : n.Made) (hfits : n.Fits) : n.Separate :=
  have hn : n.Within n.parts := ⟨hmade.wellKeyed, hfits, fun _ hp => hp⟩
  fun _ hp _ hq => h.key_ne_of_mem_descendants (hn.part hp) hq

end Node

/-- A build of a scene that nothing stops matches that of what a build left. The roots that a build
    leaves are separate if they were. -/
theorem Scene.matches_left {scene scene' : Scene α} {s s' : Site α ω} {done : Bool}
    (hroots : ∀ n ∈ scene.roots, n.Separate) (h : scene.build probe s = .ok (done, scene', s')) :
    (∀ n ∈ scene'.roots, n.Separate) ∧
      Matches (scene.build never s) (scene'.build never s') := by
  obtain ⟨⟨done, roots, s'⟩, hbuild, h⟩ := bind_eq_ok_iff.1 h
  cases h
  have hend := Node.allEnd_of_buildAll hbuild
  constructor
  · exact hend.keeps hroots fun _ _ _ _ _ _ hb hn => hn.of_build hb
  · exact (hend.matches_left fun n hn _ _ _ hb => Node.matches_left (hroots n hn) hb).bind
      fun done roots s s' hs => .ok done _ hs

/-! ## Interrupted builds -/

section Interrupted

variable (run : (Nat → Bool) → β → Site α ω → Except Fault (Bool × β × Site α ω))

/-- Builds one after another, each stopped by its probe. The first builds `x` with the cache `c`;
    each builds what the one before it left, with the cache that it left. -/
inductive Interrupted (x : β) (c : Cache α ω) : β → Cache α ω → Prop
  | nil : Interrupted x c x c
  | stop {y z : β} {d : Cache α ω} {s : Site α ω} {probe : Nat → Bool} : Interrupted x c y d →
      run probe y { cache := d } = .ok (false, z, s) → Interrupted x c z s.cache

/-- However often builds of `x` are interrupted, and whatever the cache is, a build after them that
    is not stopped matches a build from the start that is not stopped. -/
def Resumes (x : β) : Prop :=
  ∀ (c d : Cache α ω) (y : β) (p q : Nat → Bool), Interrupted run x c y d →
    (∀ r, run p x { cache := c } ≠ .ok (false, r)) →
    (∀ r, run q y { cache := d } ≠ .ok (false, r)) →
      Matches (run p x { cache := c }) (run q y { cache := d })

variable {run}

omit [Scalar α] in
/-- Builds go on where they were interrupted if each step does. -/
theorem resumes_of {P : β → Prop}
    (hnever : ∀ probe x s, (∀ r, run probe x s ≠ .ok (false, r)) → run probe x s = run never x s)
    (hmisses : ∀ x s s', MoreMisses s.cache s'.cache → Matches (run never x s) (run never x s'))
    (hleft : ∀ probe x y s s', P x → run probe x s = .ok (false, y, s') →
      P y ∧ Matches (run never x s) (run never y s')) {x : β} (hx : P x) : Resumes run x := by
  intro c d y p q hinterrupted hp hq
  rw [hnever _ _ _ hp, hnever _ _ _ hq]
  have hlast : P y ∧ Matches (run never x { cache := c }) (run never y { cache := d }) := by
    clear hp hq
    induction hinterrupted with
    | nil => exact ⟨hx, .refl _⟩
    | stop _ hstop ih =>
      obtain ⟨hy, hmatch⟩ := ih
      obtain ⟨hz, hstep⟩ := hleft _ _ _ _ _ hy hstop
      exact ⟨hz, hmatch.trans (hstep.trans (hmisses _ _ _ (.refl _)))⟩
  exact hlast.2

end Interrupted

/-- However often the builds of a tree or of a scene are interrupted, and wherever, the build that
    is not stopped leaves the same tree as one that is not stopped from the start, and the same
    cache but for more misses. Or else both fault, in the same way. The trees may be built to any
    extent before, and the cache may be any; but the digest must not confuse the parts of a tree. -/
theorem resumes_of_collisionFree [KeyDigest] :
    (∀ n : Node α, n.Made → n.Fits → Node.CollisionFree n.parts →
      Resumes (ω := ω) Node.build n) ∧
      ∀ scene : Scene α,
        (∀ n ∈ scene.roots, n.Made ∧ n.Fits ∧ Node.CollisionFree n.parts) →
          Resumes (ω := ω) Scene.build scene := by
  constructor
  · intro n hmade hfits hfree
    refine resumes_of (P := Node.Separate) ?_ ?_ ?_ (hfree.separate hmade hfits)
    · exact fun _ _ _ => Node.build_eq_never
    · exact fun n _ _ => n.matches_build
    · exact fun _ _ _ _ _ hn hb => ⟨hn.of_build hb, Node.matches_left hn hb⟩
  · intro scene hroots
    refine resumes_of (P := fun scene => ∀ n ∈ scene.roots, n.Separate) ?_ ?_ ?_ ?_
    · exact fun _ _ _ => Scene.build_eq_never
    · exact fun scene _ _ hs =>
        (Node.matches_buildAll scene.roots hs).bind fun done roots s s' hs => .ok done _ hs
    · exact fun _ _ _ _ _ => Scene.matches_left
    · intro n hn
      obtain ⟨hmade, hfits, hfree⟩ := hroots n hn
      exact hfree.separate hmade hfits

section Mixing

attribute [local instance] KeyDigest.mixing

/-- A build of a group of a union of a cube is stopped before the cube. The next one ends with what
    one build alone ends with, even though the cache has no room for a mesh. -/
theorem resumes_unitedCube : ∃ (y n : Node Float) (d : Cache Float Unit) (s s' : Site Float Unit),
    Interrupted Node.build Node.unitedCube (.new 0) y d ∧
      Node.unitedCube.build never { cache := .new 0 } = .ok (true, n, s) ∧
      y.build never { cache := d } = .ok (true, n, s') ∧ MoreMisses s.cache s'.cache := by
  obtain ⟨⟨y, t⟩, hstop⟩ : ∃ r, Node.unitedCube.build (· == 1)
      ({ cache := .new 0 } : Site Float Unit) = .ok (false, r) :=
    exists_of_done? (by decide +kernel)
  obtain ⟨⟨n, s⟩, hrun⟩ : ∃ r, Node.unitedCube.build never
      ({ cache := .new 0 } : Site Float Unit) = .ok (true, r) :=
    exists_of_done? (by decide +kernel)
  have hinterrupted : Interrupted Node.build Node.unitedCube (.new 0) y t.cache :=
    .stop .nil hstop
  obtain ⟨htrees, _⟩ := resumes_of_collisionFree (α := Float) (ω := Unit)
  have hresumes := htrees Node.unitedCube Node.made_unitedCube (by decide +kernel)
    (by decide +kernel)
  have hmatch := hresumes (.new 0) t.cache y never never hinterrupted
    Node.build_never_ne Node.build_never_ne
  rw [hrun] at hmatch
  generalize hagain : y.build never { cache := t.cache } = x at hmatch
  cases hmatch with
  | ok _ _ hs => exact ⟨y, n, t.cache, s, _, hinterrupted, hrun, hagain, hs⟩

end Mixing

end Solids
