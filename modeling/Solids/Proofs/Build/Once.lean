import Solids.Proofs.Build.Resume
import Solids.Proofs.Build.Session
import Solids.Proofs.Cache.Accounts

/-!
# Meshes made once

A build stores a mesh only where there is none (`StoresNew`): between the lookup of a part, which
did not find it, and the store of its mesh there is the build of the parts below it, which have
other keys.

So a cache that nothing but builds writes to has an entry for every mesh that was ever stored,
except those that were evicted (`Cache.Counted`). The main statement, `Session.stored_eq_size`, says
so of every session: the step is one event of a build (`Cache.Counted.effect`), a run of them is a
build (`Cache.Counted.of_goes`), and a run of builds the session.
-/

namespace Solids

variable {α ω β γ : Type}

/-! ## Counts -/

/-- A table has one key less without a key that it has. -/
theorem Table.size_erase {κ : Type} [DecidableEq κ] {t : Table κ β} {k : κ} {v : β}
    (h : t.get? k = some v) : (t.erase k).size + 1 = t.size := by
  have hsum := sum_erase (fun _ => 1) t k
  rwa [h, Option.map_some, Option.getD_some, sum_one, sum_one] at hsum

namespace Cache

/-- Every entry has a mesh, and the entries are as many as were stored and not evicted. -/
structure Counted (c : Cache α ω) : Prop where
  accounts : c.Accounts
  mesh_ne_none : ∀ k e, c.entries.get? k = some e → e.mesh ≠ none
  stored_eq : c.stats.stored = c.size + c.stats.evictions

/-- A new cache has nothing to count. -/
theorem counted_new (limit : Nat) : (new limit : Cache α ω).Counted where
  accounts := (balanced_new limit).toAccounts
  mesh_ne_none _ _ he := nomatch he
  stored_eq := rfl

namespace Counted

variable {c : Cache α ω} (h : c.Counted)
include h

/-- A key without a mesh has no entry. -/
theorem get?_eq_none {k : CacheKey} (hk : c.mesh? k = none) : c.entries.get? k = none := by
  cases he : c.entries.get? k with
  | none => rfl
  | some e =>
    rw [mesh?, content, he] at hk
    exact absurd hk (h.mesh_ne_none k e he)

/-- A touch changes no count. -/
theorem touch (k : CacheKey) : (c.touch k).Counted := by
  have haccounts := h.accounts.touch k
  rw [Cache.touch] at haccounts ⊢
  split at haccounts
  · next e he =>
    refine ⟨haccounts, fun k' e' he' => ?_, ?_⟩
    · rw [get?_use] at he'
      split at he'
      · cases he'
        exact h.mesh_ne_none k e he
      · exact h.mesh_ne_none k' e' he'
    · -- The entry is used again under its own key.
      have hsize : (c.use k e.toCacheContent e.cost).size = c.size := by
        rw [size, Cache.use, Table.size_insert, he]
        rfl
      rw [hsize]
      exact h.stored_eq
  · exact ⟨haccounts, h.mesh_ne_none, h.stored_eq⟩

/-- A lookup counts as a hit or as a miss, and as nothing else. -/
theorem lookup (k : CacheKey) : (c.lookup k).2.Counted := by
  have hcount (stats : CacheStats) (hstored : stats.stored = c.stats.stored)
      (hevictions : stats.evictions = c.stats.evictions) :
      ({ c with stats } : Cache α ω).Counted := by
    refine ⟨h.accounts.of_eq rfl rfl rfl (Nat.le_refl _), h.mesh_ne_none, ?_⟩
    rw [hstored, hevictions]
    exact h.stored_eq
  rw [Cache.lookup]
  split
  · exact (hcount { c.stats with hits := c.stats.hits + 1 } rfl rfl).touch k
  · exact hcount { c.stats with misses := c.stats.misses + 1 } rfl rfl

/-- A round of evictions takes one entry, and counts it. -/
theorem evictOldest (hover : c.limit < c.totalCost) : c.evictOldest.Counted := by
  obtain ⟨use, uses, e, huses, he, -, -⟩ := h.accounts.exists_oldest hover
  have haccounts := h.accounts.evictOldest hover
  rw [evictOldest_eq huses he] at haccounts ⊢
  refine ⟨haccounts, fun k e' he' => ?_, ?_⟩
  · rw [Table.get?_erase] at he'
    split at he'
    · cases he'
    · exact h.mesh_ne_none k e' he'
  · have hsize : (c.entries.erase use.2).size + 1 = c.entries.size := Table.size_erase he
    have hstored : c.stats.stored = c.entries.size + c.stats.evictions := h.stored_eq
    change c.stats.stored = (c.entries.erase use.2).size + (c.stats.evictions + 1)
    omega

/-- All rounds of evictions count the entries that they take. -/
theorem of_evicting {c' : Cache α ω} (he : Evicting c c') : c'.Counted := by
  induction he with
  | start => exact h
  | round _ hover ih => exact ih.evictOldest hover

/-- A mesh that is stored where there is none is one more entry. -/
theorem store {k : CacheKey} (hk : c.mesh? k = none) (m : Mesh α) : (c.store k m).Counted := by
  have hput : (c.putMesh k m).Counted := by
    refine ⟨h.accounts.putMesh k m, fun k' e he => ?_, ?_⟩
    · rw [putMesh, get?_use] at he
      split at he
      · cases he
        exact Option.some_ne_none m
      · exact h.mesh_ne_none k' e he
    · have hsize : (c.putMesh k m).size = c.size + 1 := by
        rw [size, putMesh, Cache.use, Table.size_insert, h.get?_eq_none hk]
        rfl
      have hstored := h.stored_eq
      change c.stats.stored + 1 = (c.putMesh k m).size + c.stats.evictions
      omega
  exact hput.of_evicting hput.accounts.evictsCleanly.evicting_evict

end Counted

end Cache

/-! ## Events -/

/-- The event stores no mesh under a key that has one. -/
def Event.StoresNew (s : Site α ω) : Event α ω → Prop
  | .construct n _ => s.cache.mesh? n.key = none
  | _ => True

/-- None of the events, one after another from a site, stores a mesh under a key that has one. -/
def StoresNew (s : Site α ω) : List (Event α ω) → Prop
  | [] => True
  | e :: es => e.StoresNew s ∧ StoresNew (e.effect s) es

/-- An event that stores nothing twice keeps the counts of the cache. -/
theorem Cache.Counted.effect {s : Site α ω} (h : s.cache.Counted) {e : Event α ω}
    (he : e.StoresNew s) : (e.effect s).cache.Counted := by
  cases e with
  | poll _ _ | visit _ => exact h
  | lookup k => exact h.lookup k
  | construct n m => exact h.store he m

variable [Scalar α] {probe : Nat → Bool}

/-- Events that store nothing twice keep the counts of the cache. -/
theorem Cache.Counted.of_goes {s s' : Site α ω} {es : List (Event α ω)}
    (hgoes : s.Goes probe es s') (hes : StoresNew s es) (h : s.cache.Counted) :
    s'.cache.Counted := by
  induction hgoes with
  | nil => exact h
  | cons _ _ ih => exact ih hes.2 (h.effect hes.1)

namespace StoresNew

/-- Events after others store nothing twice if neither do. -/
theorem append {s s' : Site α ω} {es es' : List (Event α ω)} (hgoes : s.Goes probe es s')
    (h : StoresNew s es) (h' : StoresNew s' es') : StoresNew s (es ++ es') := by
  induction hgoes with
  | nil => exact h'
  | cons _ _ ih => exact ⟨h.1, ih h.2 h'⟩

/-- A computation after another stores nothing twice if neither does. -/
theorem bind {s : Site α ω} {x : Logged α ω (Bool × β × Site α ω)}
    {f : Bool × β × Site α ω → Logged α ω γ} (hx : Accounted probe s x) (h : StoresNew s x.log)
    (hf : ∀ r, x.result = .ok r → StoresNew r.2.2 (f r).log) : StoresNew s (x >>= f).log := by
  -- The events of `f` happen at the site that those of `x` lead to.
  obtain ⟨s', hgoes, hsite⟩ := hx
  cases hres : x.result with
  | error e =>
    rw [Logged.bind_of_error hres]
    exact h
  | ok r =>
    rw [Logged.bind_of_ok hres, Logged.log_after]
    exact h.append hgoes (hsite r hres ▸ hf r hres)

end StoresNew

namespace Node

/-! ## Builds -/

/-- The events of a build of parts lead from its site to the one that it leaves. -/
theorem accounted_loggedAll (ns : List (Node α)) (s : Site α ω) :
    Accounted probe s (loggedAll probe ns s) :=
  (tracked_loggedAll (fun n _ s => n.tracked_loggedInside s) s).accounted

/-- The events of a build lead from its site to the one that it leaves. -/
theorem accounted_logged (n : Node α) (s : Site α ω) : Accounted probe s (n.logged probe s) := by
  rw [logged_eq]
  exact (n.tracked_loggedInside s).accounted.after_visit

/-- A build of parts stores nothing twice if that of no part does. -/
theorem storesNew_loggedAll {ns : List (Node α)}
    (h : ∀ n ∈ ns, ∀ s : Site α ω, StoresNew s (n.logged probe s).log) (s : Site α ω) :
    StoresNew s (loggedAll probe ns s).log := by
  induction ns generalizing s with
  | nil =>
    rw [loggedAll_nil]
    trivial
  | cons n ns ih =>
    obtain ⟨hn, hns⟩ := List.forall_mem_cons.1 h
    rw [loggedAll_cons]
    split
    · exact ⟨trivial, trivial⟩
    · refine ⟨trivial, (hn { s with polls := s.polls + 1 }).bind (n.accounted_logged _) ?_⟩
      rintro ⟨done, n', s'⟩ -
      cases done with
      | false => trivial
      | true => exact (ih hns s').bind (accounted_loggedAll ns s') fun _ _ => trivial

/-- A part is finished with one store, where there is nothing yet. -/
theorem storesNew_finish {n : Node α} {s : Site α ω}
    (hnone : n.kind.hasOwnMesh = true → s.cache.mesh? n.key = none) :
    StoresNew s (do let (n, s) ← s.loggedFinish n; return (true, n, s)).log := by
  rw [Site.loggedFinish]
  split
  · next hown =>
    cases n.kind.construct n.children with
    | error e => trivial
    | ok m => exact ⟨hnone hown, trivial⟩
  · trivial

/-- A build stores nothing twice if no part has the key of one below it. -/
theorem storesNew_logged {n : Node α} (hn : n.Separate) (s : Site α ω) :
    StoresNew s (n.logged probe s).log := by
  induction n using induction generalizing s with
  | step n ih =>
    obtain ⟨hself, hchildren⟩ := separate_iff.1 hn
    have hall (s : Site α ω) : StoresNew s (loggedAll probe n.children s).log :=
      storesNew_loggedAll (fun c hc s => ih c hc (hchildren c hc) s) s
    have hdrawn (n' : Node α) (hcs : n'.children = n.children) (s : Site α ω) :
        StoresNew s (n'.loggedDrawn probe s).log := by
      rw [loggedDrawn, hcs]
      split
      · exact (hall s).bind (accounted_loggedAll _ s) fun _ _ => trivial
      · trivial
    -- A part without a mesh of its own is not looked up.
    have hlookups {es : List (Event α ω)} (h : StoresNew (s.lookup n).2 es) :
        StoresNew s (n.lookups ++ es) := by
      rw [Site.lookup] at h
      rw [lookups]
      split at h
      · next hown =>
        rw [if_pos hown]
        exact ⟨trivial, h⟩
      · next hplain =>
        rw [if_neg hplain]
        exact h
    rw [logged_eq, loggedInside]
    refine ⟨trivial, ?_⟩
    split
    · exact hdrawn n rfl s
    · refine hlookups ?_
      split
      · exact hdrawn { n with mesh := _, state := _ } rfl _
      · next hmissed =>
        refine (hall _).bind (accounted_loggedAll _ _) ?_
        rintro ⟨done, cs, s'⟩ hcs
        rw [result_loggedAll fun c _ => c.result_logged] at hcs
        cases done with
        | false => trivial
        | true =>
          -- The key was missed, and the parts below have other keys.
          rw [Bool.not_eq_true, Option.isSome_eq_false_iff, Option.isNone_iff_eq_none] at hmissed
          exact storesNew_finish fun hown =>
            mesh?_eq_none_of_buildAll (n := n) hself hown hmissed hcs

end Node

/-- A build of a scene stores nothing twice if no part has the key of one below it. -/
theorem Scene.storesNew_logged {scene : Scene α} (hroots : ∀ n ∈ scene.roots, n.Separate)
    (s : Site α ω) : StoresNew s (scene.logged probe s).log :=
  (Node.storesNew_loggedAll (fun n hn s => Node.storesNew_logged (hroots n hn) s) s).bind
    (Node.accounted_loggedAll _ s) fun _ _ => trivial

/-! ## Sessions -/

namespace Session

/-- The cache has counted what was stored, and the keys of every tree tell parts from those below
    them. -/
structure Stocked (w : Session α ω) : Prop where
  counted : w.cache.Counted
  separate : ∀ n ∈ w.roots, n.Separate

/-- A build that stores nothing twice keeps the counts of the cache. -/
theorem counted_of_accounted {c : Cache α ω} (hc : c.Counted)
    {x : Logged α ω (Bool × β × Site α ω)} (hx : Accounted probe { cache := c } x)
    (hnew : StoresNew { cache := c } x.log) {r : Bool × β × Site α ω} (hr : x.result = .ok r) :
    r.2.2.cache.Counted := by
  obtain ⟨s', hgoes, hsite⟩ := hx
  rw [hsite r hr]
  exact hc.of_goes hgoes hnew

/-- A call keeps what is known of the counts. -/
theorem Stocked.call {w w' : Session α ω} (h : w.Stocked) {c : Call} {done : Bool}
    (hcall : w.call c = .ok (done, w')) : w'.Stocked := by
  obtain ⟨htrees, hscenes⟩ := forall_mem_roots.1 h.separate
  cases c with
  | tree i probe =>
    rw [Session.call] at hcall
    split at hcall
    · cases hcall
      exact h
    · next n hi =>
      have hn : n.Separate := htrees n (List.mem_of_getElem? hi)
      obtain ⟨⟨done, n', s⟩, hb, hcall⟩ := bind_eq_ok_iff.1 hcall
      cases hcall
      refine ⟨?_, forall_mem_roots.2 ⟨forall_mem_set htrees i (hn.of_build hb), hscenes⟩⟩
      rw [← n.result_logged] at hb
      exact counted_of_accounted h.counted (n.accounted_logged _) (Node.storesNew_logged hn _) hb
  | scene i probe =>
    rw [Session.call] at hcall
    split at hcall
    · cases hcall
      exact h
    · next scene hi =>
      have hroots : ∀ n ∈ scene.roots, n.Separate := hscenes scene (List.mem_of_getElem? hi)
      obtain ⟨⟨done, scene', s⟩, hb, hcall⟩ := bind_eq_ok_iff.1 hcall
      cases hcall
      have hroots' : ∀ n ∈ scene'.roots, n.Separate := (Scene.matches_left hroots hb).1
      refine ⟨?_, forall_mem_roots.2 ⟨htrees, forall_mem_set hscenes i hroots'⟩⟩
      rw [← scene.result_logged] at hb
      exact counted_of_accounted h.counted (scene.tracked_logged _).accounted
        (Scene.storesNew_logged hroots _) hb

/-- Calls keep what is known of the counts. -/
theorem Stocked.after {w w' : Session α ω} (h : w.Stocked) {cs : List Call}
    (hrun : w.after cs = .ok w') : w'.Stocked := by
  induction cs generalizing w with
  | nil =>
    cases hrun
    exact h
  | cons c cs ih =>
    rw [Session.after] at hrun
    obtain ⟨⟨done, w''⟩, hc, hrun⟩ := bind_eq_ok_iff.1 hrun
    exact ih (h.call hc) hrun

/-- Whatever trees and scenes are built through a new cache, in any order, to the end or not, every
    mesh that was stored is an entry of its own, or one that was evicted: as long as nothing was
    evicted, as many meshes were stored as there are entries. No further build stores a mesh under a
    key that has one, wherever it ends. This takes a digest that confuses no two parts of a tree. -/
theorem stored_eq_size [KeyDigest] {limit : Nat} {trees : List (Node α)} {scenes : List (Scene α)}
    (h : ∀ n ∈ trees ++ scenes.flatMap (·.roots),
      n.Made ∧ n.Fits ∧ Node.CollisionFree n.parts)
    {calls : List Call} {w : Session α ω}
    (hrun : (start limit trees scenes).after calls = .ok w) :
    (w.cache.stats.evictions = 0 → w.cache.stats.stored = w.cache.size) ∧
      w.cache.stats.stored = w.cache.size + w.cache.stats.evictions ∧
      (∀ n ∈ w.trees, ∀ probe,
        StoresNew { cache := w.cache } (n.logged probe { cache := w.cache }).log) ∧
      ∀ scene ∈ w.scenes, ∀ probe,
        StoresNew { cache := w.cache } (scene.logged probe { cache := w.cache }).log := by
  have hstart : (start limit trees scenes : Session α ω).Stocked := by
    refine ⟨Cache.counted_new limit, fun n hn => ?_⟩
    obtain ⟨hmade, hfits, hfree⟩ := h n hn
    exact hfree.separate hmade hfits
  have hend := hstart.after hrun
  obtain ⟨htrees, hscenes⟩ := forall_mem_roots.1 hend.separate
  have hstored := hend.counted.stored_eq
  refine ⟨fun hnone => ?_, hstored, fun n hn probe => ?_, fun scene hscene probe => ?_⟩
  · rw [hstored, hnone, Nat.add_zero]
  · exact Node.storesNew_logged (htrees n hn) _
  · exact Scene.storesNew_logged (hscenes scene hscene) _

section Mixing

attribute [local instance] KeyDigest.mixing

/-- The group, a scene of the other cube, and a cache with room for both. -/
def roomySession : Session Float Unit :=
  start 100000 [readGroup] [{ roots := [readCube (some "lid")] }]

/-- One mesh is stored for the two equal cubes, though the first build of the group is
    interrupted. -/
theorem stored_eq_size_roomySession : ∃ w, roomySession.after readCalls = .ok w ∧
    w.cache.stats.evictions = 0 ∧ w.cache.stats.stored = w.cache.size ∧ w.cache.size = 1 := by
  have hcounts : (match roomySession.after readCalls with
      | .ok w => decide (w.cache.stats.evictions = 0 ∧ w.cache.size = 1)
      | .error _ => false) = true := by decide +kernel
  cases hrun : roomySession.after readCalls with
  | ok w =>
    rw [hrun] at hcounts
    obtain ⟨hnone, hsize⟩ := of_decide_eq_true hcounts
    have hroots : ∀ n ∈ [readGroup, readCube (some "lid")],
        n.Made ∧ n.Fits ∧ Node.CollisionFree n.parts := by
      intro n hn
      refine ⟨told_readGroup.made n hn, told_readGroup.fits n hn, fun p hp q hq => ?_⟩
      exact told_readGroup.collisionFree p (Node.mem_partsOfAll.2 ⟨n, hn, hp⟩) q
        (Node.mem_partsOfAll.2 ⟨n, hn, hq⟩)
    exact ⟨w, rfl, hnone, (stored_eq_size hroots hrun).1 hnone, hsize⟩
  | error e =>
    rw [hrun] at hcounts
    cases hcounts

end Mixing

end Session

end Solids
