import Solids.Proofs.Build.Alone
import Solids.Proofs.Build.Frame
import Solids.Proofs.Cache.Accounts

/-!
# Builds through a cache

A cache is *coherent* for given parts (`Cache.Coherent`) if the mesh under a key is the one that
each of these parts of that key gets when it is built alone. Then a build through it gives every
part that mesh, too, whatever else is in the cache, what was dropped from it, and when the build is
interrupted:

* every part that is built has the mesh that it gets alone (`Node.Right`), and this is still so
  after a build (`Node.build_leads`);
* a tree whose build came to the end (`Node.Finished`) looks as if it was built alone
  (`Node.Finished.looksLike_alone`), even where children that were used up are not built.

The cache stays coherent as long as parts of one key get one mesh (`Node.MeshByKey`).
-/

namespace Solids

variable {α ω : Type}

/-! ## What changes in a cache -/

namespace Cache

/-- A drop brings in no entry. -/
theorem get?_of_get?_drop {c : Cache α ω} {k k' : CacheKey} {e : CacheEntry α ω}
    (h : (c.drop k).entries.get? k' = some e) : c.entries.get? k' = some e := by
  rw [drop] at h
  split at h
  · rw [Table.get?_erase] at h
    split at h
    · cases h
    · exact h
  · exact h

/-- A round of evictions brings in no entry. -/
theorem get?_of_get?_evictOldest {c : Cache α ω} {k : CacheKey} {e : CacheEntry α ω}
    (h : c.evictOldest.entries.get? k = some e) : c.entries.get? k = some e := by
  rw [evictOldest] at h
  split at h
  · exact get?_of_get?_drop (c := { c with recency := c.recency.tail }) h
  · exact h

/-- Evictions bring in no entry. -/
theorem get?_of_get?_evictFrom {uses : List (Nat × CacheKey)} {c : Cache α ω} {k : CacheKey}
    {e : CacheEntry α ω} (h : (evictFrom uses c).entries.get? k = some e) :
    c.entries.get? k = some e := by
  induction uses generalizing c with
  | nil => exact h
  | cons use uses ih =>
    rw [evictFrom] at h
    split at h
    · exact get?_of_get?_evictOldest (ih h)
    · exact h

/-- Evictions bring in no mesh. -/
theorem mesh?_of_mesh?_evict {c : Cache α ω} {k : CacheKey} {m : Mesh α}
    (h : c.evict.mesh? k = some m) : c.mesh? k = some m := by
  rw [mesh?, content] at h ⊢
  cases hk : c.evict.entries.get? k with
  | none =>
    rw [hk] at h
    cases h
  | some e =>
    rw [hk] at h
    rw [get?_of_get?_evictFrom hk]
    exact h

/-- A store brings in its mesh and no other. -/
theorem mesh?_of_mesh?_store {c : Cache α ω} {k k' : CacheKey} {m m' : Mesh α}
    (h : (c.store k m).mesh? k' = some m') : k = k' ∧ m = m' ∨ c.mesh? k' = some m' := by
  have hput := mesh?_of_mesh?_evict h
  rw [mesh?, content, putMesh, use] at hput
  simp only [Table.get?_insert] at hput
  by_cases hk : k = k'
  · rw [if_pos hk] at hput
    exact .inl ⟨hk, Option.some.inj hput⟩
  · rw [if_neg hk] at hput
    exact .inr hput

/-- A store brings in no mesh under another key. -/
theorem mesh?_store_of_ne {c : Cache α ω} {k k' : CacheKey} (m : Mesh α) (hk : k ≠ k')
    (h : c.mesh? k' = none) : (c.store k m).mesh? k' = none := by
  cases hm : (c.store k m).mesh? k' with
  | none => rfl
  | some m' =>
    rcases mesh?_of_mesh?_store hm with ⟨hkey, _⟩ | hold
    · exact absurd hkey hk
    · rw [h] at hold
      cases hold

/-- A touch changes no content. -/
theorem content_touch (c : Cache α ω) (k k' : CacheKey) :
    (c.touch k).content k' = c.content k' := by
  rw [touch]
  split
  · next e he =>
    rw [content, content, get?_use]
    by_cases hk : k = k'
    · rw [if_pos hk, ← hk, he]
    · rw [if_neg hk]
  · rfl

/-- A lookup changes no mesh. -/
theorem mesh?_lookup (c : Cache α ω) (k k' : CacheKey) :
    (c.lookup k).2.mesh? k' = c.mesh? k' := by
  rw [lookup]
  split
  · exact congrArg CacheContent.mesh (content_touch _ k k')
  · rfl

variable [Scalar α]

/-- The mesh under a key is the one that each of the given parts of that key gets alone. -/
def Coherent (c : Cache α ω) (us : List (Node α)) : Prop :=
  ∀ k m, c.mesh? k = some m → ∀ u ∈ us, u.key = k → ∃ b, u.alone = .ok b ∧ b.mesh = some m

/-- The empty cache is coherent. -/
theorem coherent_new (limit : Nat) (us : List (Node α)) :
    (new limit : Cache α ω).Coherent us := by
  intro k m hm
  cases hm

/-- A cache whose meshes are those of a coherent one is coherent. -/
theorem Coherent.of_mesh?_eq {c c' : Cache α ω} {us : List (Node α)} (h : c.Coherent us)
    (hmesh : ∀ k, c'.mesh? k = c.mesh? k) : c'.Coherent us :=
  fun k m hm => h k m (hmesh k ▸ hm)

/-- A cache stays coherent if a mesh is stored that all parts of the key get alone. -/
theorem Coherent.store {c : Cache α ω} {us : List (Node α)} (h : c.Coherent us) {k : CacheKey}
    {m : Mesh α} (hm : ∀ u ∈ us, u.key = k → ∃ b, u.alone = .ok b ∧ b.mesh = some m) :
    (c.store k m).Coherent us := by
  intro k' m' hm' u hu hkey
  rcases mesh?_of_mesh?_store hm' with ⟨rfl, rfl⟩ | hold
  · exact hm u hu hkey
  · exact h k' m' hold u hu hkey

end Cache

variable [Scalar α] {probe : Nat → Bool}

namespace Node

/-! ## Parts that are built right -/

/-- A part has the mesh that it gets alone if it is built, and none if it is not. -/
structure Honest (p : Node α) : Prop where
  mesh_eq : p.isBuilt = true → ∃ b, p.alone = .ok b ∧ p.mesh = b.mesh
  mesh_eq_none : p.isBuilt = false → p.mesh = none

/-- Every part of the tree has the mesh that it gets alone if it is built, and none if it is
    not. -/
def Right (n : Node α) : Prop := ∀ p ∈ n.parts, p.Honest

/-- A tree is right if its root is honest and its children are right. -/
theorem right_iff {n : Node α} : n.Right ↔ n.Honest ∧ ∀ c ∈ n.children, c.Right :=
  forall_mem_parts

/-- A tree that was only made is right. -/
theorem right_fresh (n : Node α) : n.fresh.Right := by
  intro p hp
  rw [parts_fresh] at hp
  obtain ⟨q, _, rfl⟩ := List.mem_map.1 hp
  rw [fresh_eq]
  exact ⟨fun h => absurd h Bool.false_ne_true, fun _ => rfl⟩

/-- The part is built, and those of its children that are drawn are finished. -/
inductive Finished : Node α → Prop
  | intro {n : Node α} : n.isBuilt = true →
      (n.kind.rendersChildren = true → ∀ c ∈ n.children, c.Finished) → Finished n

/-- Trees that look as if they were built alone, one by one. -/
theorem exists_aloneAll {ns : List (Node α)}
    (h : ∀ n ∈ ns, ∃ b, n.alone = .ok b ∧ n.LooksLike b) :
    ∃ bs, aloneAll ns = .ok bs ∧ List.Forall₂ LooksLike ns bs := by
  induction ns with
  | nil => exact ⟨[], rfl, .nil⟩
  | cons n ns ih =>
    obtain ⟨hn, hns⟩ := List.forall_mem_cons.1 h
    obtain ⟨b, hb, hlooks⟩ := hn
    obtain ⟨bs, hbs, hall⟩ := ih hns
    exact ⟨b :: bs, aloneAll_eq_ok_iff.2 (.cons hb (aloneAll_eq_ok_iff.1 hbs)), .cons hlooks hall⟩

/-- A finished tree that is right looks as if it was built alone. -/
theorem Finished.looksLike_alone {n : Node α} (hfin : n.Finished) (hright : n.Right) :
    ∃ b, n.alone = .ok b ∧ n.LooksLike b := by
  induction hfin with
  | @intro n hbuilt hdrawn ih =>
    obtain ⟨hself, hchildren⟩ := right_iff.1 hright
    obtain ⟨b, hb, hmesh⟩ := hself.mesh_eq hbuilt
    obtain ⟨bs, hbs, mesh, hown, rfl⟩ := alone_eq_ok_iff.1 hb
    refine ⟨_, hb, .of_children rfl rfl rfl hbuilt ?_ fun hcounts => ?_⟩
    · rw [mesh?, mesh?, hbuilt, hmesh]
      rfl
    · have hrenders : n.kind.rendersChildren = true :=
        hcounts.resolve_right (by simp [hbuilt])
      obtain ⟨bs', hbs', hlooks⟩ := exists_aloneAll fun c hc => ih hrenders c hc (hchildren c hc)
      rw [hbs, Except.ok.injEq] at hbs'
      exact hbs' ▸ hlooks

/-- A tree with a child that cannot be built alone cannot be, either. -/
theorem alone_error {n : Node α} (h : ∃ e, aloneAll n.children = .error e) :
    ∃ e, n.alone = .error e := by
  obtain ⟨e, he⟩ := h
  cases hn : n.alone with
  | error e => exact ⟨e, rfl⟩
  | ok b =>
    obtain ⟨bs, hbs, _⟩ := alone_eq_ok_iff.1 hn
    rw [he] at hbs
    cases hbs

/-- Trees of which one cannot be built alone cannot all be. -/
theorem aloneAll_error {ns : List (Node α)} (h : ∃ n ∈ ns, ∃ e, n.alone = .error e) :
    ∃ e, aloneAll ns = .error e := by
  obtain ⟨n, hn, e, he⟩ := h
  cases hns : aloneAll ns with
  | error e => exact ⟨e, rfl⟩
  | ok bs =>
    obtain ⟨b, _, hb⟩ := exists_mem_of_forall₂ (aloneAll_eq_ok_iff.1 hns).flip hn
    change n.alone = .ok b at hb
    rw [he] at hb
    cases hb

/-! ## Building -/

/-- Parts of one key differ in names alone, so that they get one mesh. -/
def MeshByKey (us : List (Node α)) : Prop :=
  ∀ u ∈ us, ∀ v ∈ us, u.key = v.key → u.unnamed = v.unnamed

/-- The parts of the tree, as they were made, are among the given ones. -/
def Among (us : List (Node α)) (n : Node α) : Prop := ∀ p ∈ n.parts, p.fresh ∈ us

omit [Scalar α] in
/-- A tree that was made as another consists of the same parts. -/
theorem Among.of_fresh_eq {us : List (Node α)} {n n' : Node α} (h : n.Among us)
    (hfresh : n.fresh = n'.fresh) : n'.Among us := by
  intro p hp
  have hmem : p.fresh ∈ n'.parts.map fresh := List.mem_map_of_mem hp
  rw [← parts_fresh, ← hfresh, parts_fresh] at hmem
  obtain ⟨q, hq, hqp⟩ := List.mem_map.1 hmem
  exact hqp ▸ h q hq

omit [Scalar α] in
/-- Trees of which nothing is built consist of their parts. -/
theorem among_of_fresh {ns : List (Node α)} (hfresh : ∀ n ∈ ns, n.fresh = n) :
    ∀ n ∈ ns, n.Among (partsOfAll ns) := by
  intro n hn p hp
  have hmem : p.fresh ∈ n.parts.map fresh := List.mem_map_of_mem hp
  rw [← parts_fresh, hfresh n hn] at hmem
  exact mem_partsOfAll.2 ⟨n, hn, hmem⟩

/-- A right tree with other children, made as its own, that are right is right. -/
theorem Right.with_children {n : Node α} {cs : List (Node α)} (h : n.Right)
    (hfresh : cs.map fresh = n.children.map fresh) (hcs : ∀ c ∈ cs, c.Right) :
    Right { n with children := cs } := by
  have hself := (right_iff.1 h).1
  refine right_iff.2 ⟨⟨fun hbuilt => ?_, hself.mesh_eq_none⟩, hcs⟩
  rw [alone_congr (fresh_with_children hfresh)]
  exact hself.mesh_eq hbuilt

/-- A part whose mesh is in a coherent cache is right with it. -/
theorem Right.of_found {us : List (Node α)} {n : Node α} {c : Cache α ω} {m : Mesh α}
    (h : n.Right) (hn : n.fresh ∈ us) (hc : c.Coherent us) (hm : c.mesh? n.key = some m) :
    Right { n with mesh := some m, state := .built } := by
  refine right_iff.2 ⟨⟨fun _ => ?_, fun hunbuilt => ?_⟩, (right_iff.1 h).2⟩
  · obtain ⟨b, hb, hmesh⟩ := hc n.key m hm n.fresh hn n.fresh_key
    rw [alone_congr (fresh_update n .built (some m)), ← alone_fresh]
    exact ⟨b, hb, hmesh.symm⟩
  · exact absurd hunbuilt.symm Bool.false_ne_true

omit [Scalar α] in
/-- What is found for a part is the mesh under its key. -/
theorem mesh?_of_lookup {s : Site α ω} {n : Node α} {m : Mesh α}
    (h : (s.lookup n).1 = some m) : s.cache.mesh? n.key = some m := by
  rw [Site.lookup] at h
  split at h
  · exact (s.cache.lookup_fst n.key).symm.trans h
  · cases h

omit [Scalar α] in
/-- To look up a part changes no mesh. -/
theorem mesh?_lookup (s : Site α ω) (n : Node α) (k : CacheKey) :
    (s.lookup n).2.cache.mesh? k = s.cache.mesh? k := by
  rw [Site.lookup]
  split
  · exact s.cache.mesh?_lookup n.key k
  · rfl

/-- The cache stays coherent when a part is looked up. -/
theorem coherent_lookup {us : List (Node α)} {s : Site α ω} (hs : s.cache.Coherent us)
    (n : Node α) : (s.lookup n).2.cache.Coherent us :=
  hs.of_mesh?_eq (mesh?_lookup s n)

/-- What the build of a tree leads to: the cache stays coherent, the tree is the same one and
    right, and it is finished if the build came to the end. The build faults only if the tree
    cannot be built alone. -/
def Leads (us : List (Node α)) (n : Node α) (r : Except Fault (Bool × Node α × Site α ω)) : Prop :=
  Outcome r (∃ e, n.alone = .error e) fun r =>
    r.2.2.cache.Coherent us ∧ (r.2.1.fresh = n.fresh ∧ r.2.1.Right) ∧
      (r.1 = true → r.2.1.Finished)

/-- What the builds of trees lead to: the cache stays coherent, the trees are the same ones and
    right, and they are finished if the builds came to the end. The builds fault only if the trees
    cannot be built alone. -/
def AllLead (us ns : List (Node α)) (r : Except Fault (Bool × List (Node α) × Site α ω)) : Prop :=
  Outcome r (∃ e, aloneAll ns = .error e) fun r =>
    r.2.2.cache.Coherent us ∧ (r.2.1.map fresh = ns.map fresh ∧ ∀ n ∈ r.2.1, n.Right) ∧
      (r.1 = true → ∀ n ∈ r.2.1, n.Finished)

/-- Builds of trees lead where each of them leads. -/
theorem buildAll_leads {us ns : List (Node α)} {s : Site α ω} (hs : s.cache.Coherent us)
    (hright : ∀ n ∈ ns, n.Right)
    (h : ∀ n ∈ ns, ∀ s : Site α ω, s.cache.Coherent us → n.Leads us (n.build probe s)) :
    AllLead us ns (buildAll probe ns s) := by
  exact (buildAll_good (fun c => c.Coherent us) (fun n => ∃ e, n.alone = .error e) Finished Right hs
    hright h).imp aloneAll_error fun _ => id

section Children

variable {us : List (Node α)} {n : Node α} (hright : n.Right)
  (hall : ∀ s : Site α ω, s.cache.Coherent us → AllLead us n.children (buildAll probe n.children s))
include hright hall

/-- The build of the children that are drawn leads where it should. -/
theorem buildDrawn_leads (hbuilt : n.isBuilt = true) {s : Site α ω} (hs : s.cache.Coherent us) :
    n.Leads us (n.buildDrawn probe s) := by
  rw [buildDrawn]
  split
  · refine (hall s hs).bind alone_error ?_
    rintro ⟨done, cs, s'⟩ ⟨hcache, ⟨hfresh, hcs⟩, hfin⟩
    exact ⟨hcache, ⟨fresh_with_children hfresh, hright.with_children hfresh hcs⟩,
      fun hdone => .intro hbuilt fun _ => hfin hdone⟩
  · next hrenders => exact ⟨hs, ⟨rfl, hright⟩, fun _ => .intro hbuilt fun h => absurd h hrenders⟩

end Children

/-- What a part without a mesh is finished to: it gets the mesh made from its children, which is
    stored, too. -/
theorem finish_eq {n : Node α} (hmesh : n.mesh = none) (s : Site α ω) :
    s.finish n = (do
      let mesh ← ownMesh n.kind n.children
      return ({ n with mesh, state := .built }, match mesh with
        | some m => { s with cache := s.cache.store n.key m }
        | none => s)) := by
  rw [Site.finish, ownMesh]
  split
  · cases n.kind.construct n.children <;> rfl
  · rw [hmesh]
    rfl

/-- A part is built alone from the children that look as if they were. -/
theorem alone_of_looksLike {n : Node α} {bs : List (Node α)} (hbs : aloneAll n.children = .ok bs)
    (hlooks : List.Forall₂ LooksLike n.children bs) :
    n.alone = (fun mesh => { n with children := bs, mesh, state := .built }) <$>
      ownMesh n.kind n.children := by
  have hown : ownMesh n.kind n.children = ownMesh n.kind bs := by
    rw [ownMesh, ownMesh, construct_congr hlooks]
  rw [hown]
  cases n
  rw [alone, hbs]
  rfl

section Anew

variable {us : List (Node α)} (hus : MeshByKey us)
include hus

/-- A part whose children are right and finished is right and finished with the mesh that is made
    from them, and the cache stays coherent with that mesh. -/
theorem finish_leads {n : Node α} (hn : n.fresh ∈ us) (hmesh : n.mesh = none)
    (hright : ∀ c ∈ n.children, c.Right) (hfin : ∀ c ∈ n.children, c.Finished) {s : Site α ω}
    (hs : s.cache.Coherent us) :
    Outcome (s.finish n) (∃ e, n.alone = .error e) fun r =>
      r.2.cache.Coherent us ∧ (r.1.fresh = n.fresh ∧ r.1.Right) ∧ r.1.Finished := by
  obtain ⟨bs, hbs, hlooks⟩ := exists_aloneAll fun c hc => (hfin c hc).looksLike_alone (hright c hc)
  have halone := alone_of_looksLike hbs hlooks
  rw [finish_eq hmesh]
  cases hown : ownMesh n.kind n.children with
  | error e =>
    rw [hown] at halone
    exact ⟨e, halone⟩
  | ok mesh =>
    rw [hown] at halone
    have hfresh : fresh { n with mesh, state := .built } = n.fresh := fresh_update n .built mesh
    have hhonest : Honest { n with mesh, state := .built } :=
      ⟨fun _ => ⟨_, (alone_congr hfresh).trans halone, rfl⟩,
        fun h => absurd h.symm Bool.false_ne_true⟩
    refine ⟨?_, ⟨hfresh, right_iff.2 ⟨hhonest, hright⟩⟩, .intro rfl fun _ => hfin⟩
    cases mesh with
    | none => exact hs
    | some m =>
      refine hs.store fun u hu hkey => ?_
      have hunnamed := hus n.fresh hn u hu (n.fresh_key.trans hkey.symm)
      exact alone_mesh_of_unnamed_eq hunnamed ((alone_fresh n).trans halone)

/-- A build of a part that is not built leads where it should. -/
theorem buildAnew_leads {n : Node α} (hn : n.fresh ∈ us) (hright : n.Right)
    (hunbuilt : n.isBuilt = false)
    (hall : ∀ s : Site α ω, s.cache.Coherent us →
      AllLead us n.children (buildAll probe n.children s)) {s : Site α ω}
    (hs : s.cache.Coherent us) : n.Leads us (n.buildAnew probe s) := by
  have hmesh := (right_iff.1 hright).1.mesh_eq_none hunbuilt
  rw [buildAnew]
  refine (hall s hs).bind alone_error ?_
  rintro ⟨done, cs, s'⟩ ⟨hcache, ⟨hfresh, hcs⟩, hfin⟩
  have hstate (state : BuildState) : fresh { n with state, children := cs } = n.fresh :=
    (fresh_update { n with children := cs } state n.mesh).trans (fresh_with_children hfresh)
  cases done with
  | false =>
    have hhonest : Honest { n with state := .unbuilt, children := cs } :=
      ⟨fun h => absurd h Bool.false_ne_true, fun _ => hmesh⟩
    exact ⟨hcache, ⟨hstate .unbuilt, right_iff.2 ⟨hhonest, hcs⟩⟩,
      fun h => absurd h Bool.false_ne_true⟩
  | true =>
    have hfinish := finish_leads hus (n := { n with state := .building, children := cs }) (s := s')
      ((hstate .building).symm ▸ hn) hmesh hcs (hfin rfl) hcache
    rw [alone_congr (hstate .building)] at hfinish
    refine hfinish.bind id ?_
    rintro ⟨n', s''⟩ ⟨hcache', ⟨hfresh', hright'⟩, hfin'⟩
    exact ⟨hcache', ⟨hfresh'.trans (hstate .building), hright'⟩, fun _ => hfin'⟩

/-- The build of a tree through a coherent cache keeps the cache coherent and gives every part the
    mesh that it gets alone. -/
theorem build_leads {n : Node α} (hn : n.Among us) (hright : n.Right) {s : Site α ω}
    (hs : s.cache.Coherent us) : n.Leads us (n.build probe s) := by
  induction n using induction generalizing s with
  | step n ih =>
    have hself : n.fresh ∈ us := hn n n.self_mem_parts
    have hchildren : ∀ c ∈ n.children, c.Right := (right_iff.1 hright).2
    have hall (s : Site α ω) (hs : s.cache.Coherent us) :
        AllLead us n.children (buildAll probe n.children s) := by
      refine buildAll_leads hs hchildren ?_
      intro c hc s hs
      exact ih c hc (fun p hp => hn p (mem_parts_of_mem_children hc hp)) (hchildren c hc) hs
    rw [build_eq]
    split_ifs with hbuilt hfound
    · exact buildDrawn_leads hright hall hbuilt hs
    · obtain ⟨m, hm⟩ := Option.isSome_iff_exists.1 hfound
      have hfresh := fresh_update n .built (some m)
      have hdrawn := buildDrawn_leads (n := { n with mesh := some m, state := .built })
        (hright.of_found hself hs (mesh?_of_lookup hm)) hall rfl (coherent_lookup hs n)
      rw [Leads, alone_congr hfresh, hfresh] at hdrawn
      rw [hm]
      exact hdrawn
    · rw [Bool.not_eq_true] at hbuilt
      exact buildAnew_leads hus hself hright hbuilt hall (coherent_lookup hs n)

end Anew

end Node

end Solids
