import Solids.Proofs.Build.Session

/-!
# Rules for meshes

A rule says which meshes a part may have. It *lasts* (`Node.Lasting`) if every mesh that is made
from children whose meshes obey it obeys it, too, and if it is one rule for all parts of a key. Then
all meshes in trees and in the cache obey it whatever is built, to the end or not
(`Node.build_obeys`, `Session.Obeys.call`, `Session.Obeys.after`).

In contrast to the mesh that a part gets alone, a rule may leave open what the mesh is, so that
parts of one key need not be the same.
-/

namespace Solids

variable {α ω : Type} [Scalar α] {probe : Nat → Bool} {us : List (Node α)}
  {fault : Node α → Prop} {rule : Node α → Mesh α → Prop}

/-- The mesh under the key of each of the given parts obeys the rule for that part. -/
def Cache.Obeys (rule : Node α → Mesh α → Prop) (us : List (Node α)) (c : Cache α ω) : Prop :=
  ∀ u ∈ us, ∀ m, c.mesh? u.key = some m → rule u m

namespace Node

/-- The meshes in the tree obey the rule for the parts as they were made. -/
def Obeys (rule : Node α → Mesh α → Prop) (n : Node α) : Prop :=
  ∀ p ∈ n.parts, ∀ m, p.mesh = some m → rule p.fresh m

/-- The rule holds of all meshes that are made of trees of the given parts; they are made unless the
    tree is one of those that fault. -/
structure Lasting (us : List (Node α)) (fault : Node α → Prop)
    (rule : Node α → Mesh α → Prop) : Prop where
  /-- A mesh that one part may have all parts of its key may have. -/
  of_key_eq : ∀ u ∈ us, ∀ v ∈ us, u.key = v.key → ∀ m, rule u m → rule v m
  /-- A mesh that is made from children which obey the rule obeys it. -/
  construct : ∀ n : Node α, (∀ c ∈ n.children, c.Obeys rule) →
    Outcome (n.kind.construct n.children) (fault n.fresh) (rule n.fresh)
  /-- A tree with a child that faults is one of those that fault. -/
  of_child : ∀ n : Node α, ∀ c ∈ n.children, fault c → fault n

omit [Scalar α] in
/-- A tree obeys the rule if its root and its children do. -/
theorem obeys_iff {n : Node α} :
    n.Obeys rule ↔ (∀ m, n.mesh = some m → rule n.fresh m) ∧ ∀ c ∈ n.children, c.Obeys rule :=
  forall_mem_parts

omit [Scalar α] in
/-- A tree of which nothing is built obeys every rule. -/
theorem obeys_fresh (n : Node α) : n.fresh.Obeys rule := by
  intro p hp m hm
  rw [parts_fresh] at hp
  obtain ⟨q, _, rfl⟩ := List.mem_map.1 hp
  rw [fresh_eq] at hm
  cases hm

omit [Scalar α] in
/-- A tree that obeys the rule does so with other children, made as its own, that obey it. -/
theorem Obeys.with_children {n : Node α} {cs : List (Node α)} (h : n.Obeys rule)
    (hfresh : cs.map fresh = n.children.map fresh) (hcs : ∀ c ∈ cs, c.Obeys rule) :
    Obeys rule { n with children := cs } := by
  refine obeys_iff.2 ⟨fun m hm => ?_, hcs⟩
  rw [fresh_with_children hfresh]
  exact (obeys_iff.1 h).1 m hm

/-! ## Builds -/

/-- A build of a tree keeps to the rule: it leaves the cache and the tree, which is the same one,
    obeying it. -/
def Upholds (us : List (Node α)) (fault : Node α → Prop) (rule : Node α → Mesh α → Prop)
    (n : Node α) (r : Except Fault (Bool × Node α × Site α ω)) : Prop :=
  Outcome r (fault n.fresh) fun r =>
    r.2.2.cache.Obeys rule us ∧ r.2.1.fresh = n.fresh ∧ r.2.1.Obeys rule

/-- Builds of trees keep to the rule, all together. -/
def AllUphold (us : List (Node α)) (fault : Node α → Prop) (rule : Node α → Mesh α → Prop)
    (ns : List (Node α)) (r : Except Fault (Bool × List (Node α) × Site α ω)) : Prop :=
  Outcome r (∃ n ∈ ns, fault n.fresh) fun r =>
    r.2.2.cache.Obeys rule us ∧ r.2.1.map fresh = ns.map fresh ∧ ∀ n ∈ r.2.1, n.Obeys rule

/-- Builds of trees keep to the rule if each does. -/
theorem buildAll_upholds {ns : List (Node α)} {s : Site α ω} (hs : s.cache.Obeys rule us)
    (hns : ∀ n ∈ ns, n.Obeys rule)
    (h : ∀ n ∈ ns, ∀ s : Site α ω, s.cache.Obeys rule us →
      n.Upholds us fault rule (n.build probe s)) :
    AllUphold us fault rule ns (buildAll probe ns s) := by
  have hlist := buildAll_good (fun c => c.Obeys rule us) (fun n => fault n.fresh) (fun _ => True)
    (Obeys rule) hs hns fun n hn s hs => (h n hn s hs).imp id fun _ ⟨hcache, hn'⟩ =>
      ⟨hcache, hn', fun _ => trivial⟩
  exact hlist.imp id fun _ ⟨hcache, hns', _⟩ => ⟨hcache, hns'⟩

/-- Where the build of a child faults the tree is one of those that fault. -/
theorem Lasting.of_children (hrule : Lasting us fault rule) {n : Node α}
    (h : ∃ c ∈ n.children, fault c.fresh) : fault n.fresh := by
  obtain ⟨c, hc, hfault⟩ := h
  exact hrule.of_child n.fresh c.fresh (n.fresh_children ▸ List.mem_map_of_mem hc) hfault

section Build

variable (hrule : Lasting us fault rule) {n : Node α} (hn : n.Obeys rule)
include hrule hn

/-- A part whose children are built is finished as the rule says. -/
theorem finish_upholds (hmem : n.fresh ∈ us) {s : Site α ω} (hs : s.cache.Obeys rule us) :
    Outcome (s.finish n) (fault n.fresh) fun r =>
      r.2.cache.Obeys rule us ∧ r.1.fresh = n.fresh ∧ r.1.Obeys rule := by
  obtain ⟨hself, hchildren⟩ := obeys_iff.1 hn
  rw [Site.finish]
  split
  · refine (hrule.construct n hchildren).bind id fun m hm => ?_
    have hfresh : fresh { n with mesh := some m, state := .built } = n.fresh :=
      fresh_update n .built (some m)
    refine ⟨fun u hu m' hm' => ?_, hfresh, obeys_iff.2 ⟨fun m' hm' => ?_, hchildren⟩⟩
    · rcases Cache.mesh?_of_mesh?_store hm' with ⟨hkey, rfl⟩ | hold
      · exact hrule.of_key_eq n.fresh hmem u hu (n.fresh_key.trans hkey) m hm
      · exact hs u hu m' hold
    · cases hm'
      exact hfresh ▸ hm
  · have hfresh : fresh { n with state := .built } = n.fresh := fresh_update n .built n.mesh
    exact ⟨hs, hfresh, obeys_iff.2 ⟨fun m hm => hfresh ▸ hself m hm, hchildren⟩⟩

variable (hall : ∀ s : Site α ω, s.cache.Obeys rule us →
  AllUphold us fault rule n.children (buildAll probe n.children s))
include hall

/-- A build of the children that are drawn keeps to the rule if it does in a list. -/
theorem buildDrawn_upholds {s : Site α ω} (hs : s.cache.Obeys rule us) :
    n.Upholds us fault rule (n.buildDrawn probe s) := by
  rw [buildDrawn]
  split
  · refine (hall s hs).bind hrule.of_children ?_
    rintro ⟨done, cs, s'⟩ ⟨hcache, hfresh, hcs⟩
    exact ⟨hcache, fresh_with_children hfresh, hn.with_children hfresh hcs⟩
  · exact ⟨hs, rfl, hn⟩

/-- A build of the children and of the mesh keeps to the rule if it does in a list. -/
theorem buildAnew_upholds (hmem : n.fresh ∈ us) {s : Site α ω} (hs : s.cache.Obeys rule us) :
    n.Upholds us fault rule (n.buildAnew probe s) := by
  rw [buildAnew]
  refine (hall s hs).bind hrule.of_children ?_
  rintro ⟨done, cs, s'⟩ ⟨hcache, hfresh, hcs⟩
  have hstate (state : BuildState) : fresh { n with state, children := cs } = n.fresh :=
    (fresh_update { n with children := cs } state n.mesh).trans (fresh_with_children hfresh)
  have hobeys (state : BuildState) : Obeys rule { n with state, children := cs } :=
    obeys_iff.2 ⟨fun m hm => hstate state ▸ (obeys_iff.1 hn).1 m hm, hcs⟩
  cases done with
  | false => exact ⟨hcache, hstate .unbuilt, hobeys .unbuilt⟩
  | true =>
    have hfinish := finish_upholds hrule (hobeys .building) (hstate .building ▸ hmem) hcache
    rw [hstate] at hfinish
    exact hfinish.bind id fun r hr => hr

end Build

/-- A build of a tree keeps to a rule that lasts. -/
theorem build_obeys (hrule : Lasting us fault rule) {n : Node α} (hmem : n.Among us)
    (hn : n.Obeys rule) {s : Site α ω} (hs : s.cache.Obeys rule us) :
    n.Upholds us fault rule (n.build probe s) := by
  induction n using induction generalizing s with
  | step n ih =>
    obtain ⟨hself, hchildren⟩ := obeys_iff.1 hn
    have hall (s : Site α ω) (hs : s.cache.Obeys rule us) :
        AllUphold us fault rule n.children (buildAll probe n.children s) :=
      buildAll_upholds hs hchildren fun c hc s hs =>
        ih c hc (fun p hp => hmem p (mem_parts_of_mem_children hc hp)) (hchildren c hc) hs
    have hlookup : (s.lookup n).2.cache.Obeys rule us := fun u hu m hm =>
      hs u hu m (mesh?_lookup s n u.key ▸ hm)
    have hroot : n.fresh ∈ us := hmem n n.self_mem_parts
    rw [build_eq]
    split_ifs
    · exact buildDrawn_upholds hrule hn hall hs
    · have hfresh : fresh { n with mesh := (s.lookup n).1, state := .built } = n.fresh :=
        fresh_update n .built _
      have hfound : Obeys rule { n with mesh := (s.lookup n).1, state := .built } :=
        obeys_iff.2 ⟨fun m hm => hfresh ▸ hs n.fresh hroot m
          (n.fresh_key.symm ▸ mesh?_of_lookup hm), hchildren⟩
      have hdrawn := buildDrawn_upholds hrule hfound hall hlookup
      rw [Upholds, hfresh] at hdrawn
      exact hdrawn
    · exact buildAnew_upholds hrule hn hall hroot hlookup

end Node

/-! ## Sessions -/

namespace Session

/-- The cache and the trees, which consist of the given parts, obey the rule. -/
structure Obeys (rule : Node α → Mesh α → Prop) (us : List (Node α)) (w : Session α ω) : Prop where
  cache : w.cache.Obeys rule us
  among : ∀ n ∈ w.roots, n.Among us
  roots : ∀ n ∈ w.roots, n.Obeys rule

omit [Scalar α] in
/-- A session of trees of which nothing is built starts by every rule. -/
theorem obeys_start {limit : Nat} {trees : List (Node α)} {scenes : List (Scene α)}
    (hfresh : ∀ n ∈ trees ++ scenes.flatMap (·.roots), n.fresh = n) :
    (start limit trees scenes : Session α ω).Obeys rule
      (Node.partsOfAll (trees ++ scenes.flatMap (·.roots))) where
  cache u _ m hm := by cases hm
  among := Node.among_of_fresh hfresh
  roots n hn := hfresh n hn ▸ n.obeys_fresh

namespace Obeys

variable (hrule : Node.Lasting us fault rule) {w : Session α ω} (h : w.Obeys rule us)
include hrule h

/-- A call keeps to a rule that lasts. It faults only if a tree that it is for is one of those that
    fault. -/
theorem call (c : Call) : Outcome (w.call c) (∃ n ∈ w.called c, fault n.fresh) fun r =>
    r.2.Obeys rule us ∧ w.Same r.2 := by
  refine (call_rule (fun cache => cache.Obeys rule us) (fun n => fault n.fresh) h.cache h.roots
    (fun n hn probe s hs => Node.build_obeys hrule (h.among n hn) (h.roots n hn) hs) c).imp id ?_
  rintro ⟨done, w'⟩ ⟨hcache, hsame, hroots⟩
  exact ⟨⟨hcache, hsame.among h.among, hroots⟩, hsame⟩

/-- Calls keep to a rule that lasts. -/
theorem after {cs : List Call} {w' : Session α ω} (hrun : w.after cs = .ok w') :
    w'.Obeys rule us ∧ w.Same w' := by
  induction cs generalizing w with
  | nil =>
    cases hrun
    exact ⟨h, rfl, rfl⟩
  | cons c cs ih =>
    rw [Session.after] at hrun
    obtain ⟨⟨done, w''⟩, hc, hrun⟩ := bind_eq_ok_iff.1 hrun
    obtain ⟨hcalled, hsame⟩ := (call hrule h c).of_ok hc
    obtain ⟨hafter, hsame'⟩ := ih hcalled hrun
    exact ⟨hafter, hsame.trans hsame'⟩

end Obeys

end Session

end Solids
