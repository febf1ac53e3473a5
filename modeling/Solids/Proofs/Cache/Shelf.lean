import Solids.Proofs.Cache.Accounts

/-!
# A cache is a list of contents in the order of their use

A shelf (`Shelf`) is the plain idea of a cache: contents in a row, the one used last at the end.
To use a content is to put it at the end, and where the contents cost too much together they are
dropped from the front. There are no ticks, and nothing that is kept twice: costs and totals are
computed from the row.

Every cache in use shows the same as a shelf that serves the same requests
(`Balanced.trace_shelf`): the answers, and whatever else can be seen of it after each of them
(`Cache.View`). The row of a cache is read off its order of use (`Cache.shelf`), and every request
takes the row of the cache to that of the cache after it (`Accounts.shelf_serve`).
-/

namespace Solids

/-- Contents in the order of their last use, the earliest first. -/
structure Shelf (α ω : Type) where
  contents : List (CacheKey × CacheContent α ω) := []
  /-- The cost above which contents are dropped. -/
  limit : Nat
  stats : CacheStats := {}

namespace Shelf

variable {α ω β : Type}

/-- The cost of a row of contents. -/
def rowCost (ps : List (CacheKey × CacheContent α ω)) : Nat := (ps.map fun p => p.2.cost).sum

/-- What is kept under a key; nothing if the key is not there. -/
def content (s : Shelf α ω) (k : CacheKey) : CacheContent α ω := (s.contents.lookup k).getD {}

/-- The content of a key at the end of the row, and nowhere else. -/
def putLast (s : Shelf α ω) (k : CacheKey) (content : CacheContent α ω) : Shelf α ω :=
  { s with contents := (s.contents.filter fun p => p.1 ≠ k) ++ [(k, content)] }

/-- A row without its first contents, as many as it takes to come within a limit. -/
def dropFirst (limit : Nat) :
    List (CacheKey × CacheContent α ω) → List (CacheKey × CacheContent α ω)
  | [] => []
  | p :: ps => if limit < rowCost (p :: ps) then dropFirst limit ps else p :: ps

/-- The shelf within its limit. -/
def evict (s : Shelf α ω) : Shelf α ω :=
  let kept := dropFirst s.limit s.contents
  let dropped := s.contents.length - kept.length
  { s with
    contents := kept
    stats := { s.stats with evictions := s.stats.evictions + dropped } }

/-- The answer to a request, and the shelf after it. -/
def serve (s : Shelf α ω) : Cache.Request α ω β → Cache.Answer α β × Shelf α ω
  | .store k m =>
    let stats := { s.stats with stored := s.stats.stored + 1 }
    (.done, ({ s with stats }.putLast k { s.content k with mesh := some m }).evict)
  | .attach k m a =>
    let attachments := (s.content k).attachments.insert m.identity a
    (.done, (s.putLast k { s.content k with attachments }).evict)
  | .lookup k =>
    match (s.content k).mesh with
    | some m =>
      let stats := { s.stats with hits := s.stats.hits + 1 }
      (.mesh (some m), { s with stats }.putLast k (s.content k))
    | none => (.mesh none, { s with stats := { s.stats with misses := s.stats.misses + 1 } })
  | .lookupAttachment k m read =>
    match (s.content k).attachments.get? m.identity with
    | some a => (.attachment (read a), s.putLast k (s.content k))
    | none => (.attachment none, s)
  | .contains k => (.contained (s.content k).mesh.isSome, s)
  | .clear => (.done, { s with contents := [] })

end Shelf

/-! ## What can be seen -/

namespace Cache

variable {α ω β σ : Type}

/-- All that can be seen of a cache between requests. -/
structure View (α ω : Type) where
  mesh? : CacheKey → Option (Mesh α)
  contains : CacheKey → Bool
  attachment? : CacheKey → Material.Identity → Option ω
  size : Nat
  isEmpty : Bool
  totalCost : Nat
  limit : Nat
  stats : CacheStats

/-- What can be seen of a cache. -/
def view (c : Cache α ω) : View α ω where
  mesh? := c.mesh?
  contains := c.contains
  attachment? := c.attachment?
  size := c.size
  isEmpty := c.isEmpty
  totalCost := c.totalCost
  limit := c.limit
  stats := c.stats

/-- What is answered to requests, each with what can be seen after it. -/
def trace (serve : σ → Request α ω β → Answer α β × σ) (view : σ → View α ω) (s : σ) :
    List (Request α ω β) → List (Answer α β × View α ω)
  | [] => []
  | r :: rs => ((serve s r).1, view (serve s r).2) :: trace serve view (serve s r).2 rs

end Cache

/-- What can be seen of a shelf. -/
def Shelf.view {α ω : Type} (s : Shelf α ω) : Cache.View α ω where
  mesh? k := (s.content k).mesh
  contains k := (s.content k).mesh.isSome
  attachment? k m := (s.content k).attachments.get? m
  size := s.contents.length
  isEmpty := s.contents.isEmpty
  totalCost := Shelf.rowCost s.contents
  limit := s.limit
  stats := s.stats

namespace Cache

variable {α ω β : Type}

/-! ## The row of a cache -/

/-- The contents of a cache in its order of use. -/
def shelf (c : Cache α ω) : Shelf α ω where
  contents := c.recency.uses.map fun use => (use.2, c.content use.2)
  limit := c.limit
  stats := c.stats

namespace Accounts

variable {c : Cache α ω} (h : c.Accounts)
include h

/-- The keys in the order of use are those of the entries, in some other order. -/
theorem keys_perm : (c.recency.uses.map Prod.snd).Perm (c.entries.pairs.map Prod.fst) := by
  refine (List.perm_ext_iff_of_nodup ?_ c.entries.nodup).2 fun k => ?_
  · -- An entry has one tick, so a key is there at one tick only.
    refine List.pairwise_map.2 (c.recency.rising.imp_of_mem fun {u v} hu hv hlt heq => ?_)
    obtain ⟨e, he, ht⟩ := h.mem_uses_iff.1 hu
    obtain ⟨e', he', ht'⟩ := h.mem_uses_iff.1 hv
    rw [heq, he', Option.some.injEq] at he
    rw [← ht, ← ht', he] at hlt
    exact Nat.lt_irrefl _ hlt
  · constructor
    · intro hk
      obtain ⟨⟨t, _⟩, hu, rfl⟩ := List.mem_map.1 hk
      obtain ⟨e, he, _⟩ := h.mem_uses_iff.1 hu
      exact List.mem_map.2 ⟨_, Table.get?_eq_some_iff.1 he, rfl⟩
    · intro hk
      obtain ⟨⟨_, e⟩, hp, rfl⟩ := List.mem_map.1 hk
      have he := Table.get?_eq_some_iff.2 hp
      exact List.mem_map.2 ⟨_, h.mem_uses_iff.2 ⟨e, he, rfl⟩, rfl⟩

/-- The order of use has no key twice. -/
theorem nodup_keys : (c.recency.uses.map Prod.snd).Nodup :=
  h.keys_perm.nodup_iff.2 c.entries.nodup

/-- The row has as many contents as there are entries. -/
theorem length_contents_shelf : c.shelf.contents.length = c.size := by
  have := h.keys_perm.length_eq
  rw [List.length_map, List.length_map] at this
  rw [shelf, List.length_map]
  exact this

/-- The row costs what the cache says. -/
theorem rowCost_shelf : Shelf.rowCost c.shelf.contents = c.totalCost := by
  have hcost : ∀ p ∈ c.entries.pairs, p.2.cost = c.costAt p.1 := by
    intro p hp
    rw [costAt, Table.get?_eq_some_iff.2 hp]
  calc Shelf.rowCost c.shelf.contents
      = ((c.recency.uses.map Prod.snd).map c.costAt).sum := by
        simp [Shelf.rowCost, shelf, List.map_map, Function.comp_def, h.costAt_eq]
    _ = ((c.entries.pairs.map Prod.fst).map c.costAt).sum := (h.keys_perm.map _).sum_nat
    _ = c.entries.sum CacheEntry.cost := by
        rw [Table.sum, List.map_map]
        exact congrArg List.sum (List.map_congr_left fun p hp => (hcost p hp).symm)
    _ = c.totalCost := h.totalCost_eq.symm

/-- The row has under a key what the cache has. -/
theorem content_shelf (k : CacheKey) : c.shelf.content k = c.content k := by
  have hlookup : ∀ uses : List (Nat × CacheKey),
      (uses.map fun use => (use.2, c.content use.2)).lookup k =
        if k ∈ uses.map Prod.snd then some (c.content k) else none := by
    intro uses
    induction uses with
    | nil => rfl
    | cons use uses ih =>
      rw [List.map_cons, List.lookup_cons, ih]
      by_cases hk : k = use.2
      · simp [hk]
      · simp only [beq_false_of_ne hk, List.map_cons, List.mem_cons, hk, false_or]
  rw [Shelf.content, shelf, hlookup]
  split
  · rfl
  · next hk =>
    rw [h.keys_perm.mem_iff] at hk
    rw [content]
    split
    · next e he => exact absurd (List.mem_map.2 ⟨_, Table.get?_eq_some_iff.1 he, rfl⟩) hk
    · rfl

/-- What can be seen of a cache can be seen of its row. -/
theorem view_shelf : c.shelf.view = c.view := by
  have hcontent : c.shelf.content = c.content := by
    funext k
    exact h.content_shelf k
  have hempty : c.shelf.contents.isEmpty = c.isEmpty := by
    rw [Bool.eq_iff_iff, List.isEmpty_iff_length_eq_zero, h.length_contents_shelf]
    exact List.isEmpty_iff_length_eq_zero.symm
  simp only [Shelf.view, view, hcontent, h.length_contents_shelf, h.rowCost_shelf, hempty]
  rfl

/-! ## Requests to the row -/

/-- A key that is used goes to the end of the row, with its new content. -/
theorem shelf_use (k : CacheKey) (content : CacheContent α ω) (cost total : Nat)
    (stats : CacheStats) :
    ({ c.use k content cost with totalCost := total, stats } : Cache α ω).shelf =
      { c.shelf with stats }.putLast k content := by
  have hcontent : ∀ k', (c.use k content cost).content k' =
      if k = k' then content else c.content k' := by
    intro k'
    simp only [Cache.content, get?_use]
    by_cases hk : k = k' <;> simp [hk]
  have huses : (c.use k content cost).recency.uses.map
        (fun use => (use.2, (c.use k content cost).content use.2)) =
      (c.shelf.contents.filter fun p => p.1 ≠ k) ++ [(k, content)] := by
    rw [h.uses_use, List.map_append, shelf, List.filter_map]
    congr 1
    · refine List.map_congr_left fun use hu => ?_
      have hk : use.2 ≠ k := of_decide_eq_true (List.mem_filter.1 hu).2
      rw [hcontent, if_neg hk.symm]
    · rw [List.map_singleton, hcontent, if_pos rfl]
  exact congrArg (fun contents => Shelf.mk contents c.limit stats) huses

/-- A touch puts the content of a key to the end of the row. -/
theorem shelf_touch {k : CacheKey} {e : CacheEntry α ω} (he : c.entries.get? k = some e)
    (stats : CacheStats) :
    ({ c with stats }.touch k).shelf = { c.shelf with stats }.putLast k (c.content k) := by
  have htouch : { c with stats }.touch k =
      { c.use k e.toCacheContent e.cost with totalCost := c.totalCost, stats } := by
    simp only [Cache.touch, he]
    rfl
  rw [htouch, h.shelf_use, content, he]

/-- A round of evictions takes the first content of the row. -/
theorem shelf_evictOldest (hover : c.limit < c.totalCost) :
    c.evictOldest.shelf =
      { c.shelf with
        contents := c.shelf.contents.tail
        stats := { c.stats with evictions := c.stats.evictions + 1 } } := by
  obtain ⟨use, uses, e, huses, he, _⟩ := h.exists_oldest hover
  have hnodup := h.nodup_keys
  rw [huses, List.map_cons, List.nodup_cons] at hnodup
  have hcontent : ∀ u ∈ uses, c.evictOldest.content u.2 = c.content u.2 := by
    intro u hu
    -- The key that was dropped is in no later place.
    have hne : use.2 ≠ u.2 := fun heq => hnodup.1 (List.mem_map.2 ⟨u, hu, heq.symm⟩)
    rw [evictOldest_eq huses he, content, content]
    simp [hne]
  have hrow : uses.map (fun u => (u.2, c.evictOldest.content u.2)) = c.shelf.contents.tail := by
    rw [shelf, huses, List.map_cons, List.tail_cons]
    refine List.map_congr_left ?_
    intro u hu
    rw [hcontent u hu]
  rw [← hrow, evictOldest_eq huses he]
  simp [shelf, Timeline.tail, huses]

end Accounts

end Cache

namespace Shelf

variable {α ω β : Type}

/-- A row is not longer for what was dropped. -/
theorem length_dropFirst_le (limit : Nat) (ps : List (CacheKey × CacheContent α ω)) :
    (dropFirst limit ps).length ≤ ps.length := by
  induction ps with
  | nil => exact Nat.le_refl _
  | cons p ps ih =>
    rw [dropFirst]
    split
    · exact Nat.le_succ_of_le ih
    · exact Nat.le_refl _

/-- A row within its limit stays as it is. -/
theorem evict_of_le {s : Shelf α ω} (h : rowCost s.contents ≤ s.limit) : s.evict = s := by
  have hkept : dropFirst s.limit s.contents = s.contents := by
    cases hs : s.contents with
    | nil => rfl
    | cons p ps => rw [dropFirst, if_neg (Nat.not_lt.2 (hs ▸ h))]
  rw [evict, hkept, Nat.sub_self]
  rfl

/-- A row over its limit loses its first content, and goes on. -/
theorem evict_of_lt {s : Shelf α ω} (h : s.limit < rowCost s.contents) :
    s.evict = evict { s with
      contents := s.contents.tail
      stats := { s.stats with evictions := s.stats.evictions + 1 } } := by
  cases hs : s.contents with
  | nil =>
    rw [hs] at h
    exact absurd h (Nat.not_lt_zero _)
  | cons p ps =>
    have hkept : dropFirst s.limit (p :: ps) = dropFirst s.limit ps := by
      rw [dropFirst, if_pos (hs ▸ h)]
    have hle := length_dropFirst_le s.limit ps
    have hcount : s.stats.evictions + (ps.length + 1 - (dropFirst s.limit ps).length) =
        s.stats.evictions + 1 + (ps.length - (dropFirst s.limit ps).length) := by omega
    simp only [evict, hs, hkept, List.length_cons, List.tail_cons, hcount]

end Shelf

namespace Cache

variable {α ω β : Type}

/-- The evictions from a cache are those from its row. -/
theorem Accounts.shelf_evictFrom {uses : List (Nat × CacheKey)} {c : Cache α ω}
    (h : c.Accounts) (huses : c.recency.uses = uses) :
    (Cache.evictFrom uses c).shelf = c.shelf.evict := by
  induction uses generalizing c with
  | nil =>
    have hrow : c.shelf.contents = [] := by rw [shelf, huses, List.map_nil]
    rw [Shelf.evict_of_le (hrow ▸ Nat.zero_le _), Cache.evictFrom]
  | cons use uses ih =>
    have hcost : Shelf.rowCost c.shelf.contents = c.totalCost := h.rowCost_shelf
    rw [Cache.evictFrom]
    split
    · next hover =>
      obtain ⟨use', uses', e, huses', he, _⟩ := h.exists_oldest hover
      rw [ih (h.evictOldest hover) (by rw [evictOldest_eq huses' he]; simp [Timeline.tail, huses]),
        h.shelf_evictOldest hover, Shelf.evict_of_lt (s := c.shelf) (hcost ▸ hover)]
      rfl
    · next hunder => exact (Shelf.evict_of_le (hcost ▸ Nat.le_of_not_lt hunder)).symm

/-- The evictions from a cache are those from its row. -/
theorem Accounts.shelf_evict {c : Cache α ω} (h : c.Accounts) : c.evict.shelf = c.shelf.evict :=
  h.shelf_evictFrom rfl

/-- The row after a mesh was put under a key. -/
theorem Accounts.shelf_putMesh {c : Cache α ω} (h : c.Accounts) (k : CacheKey) (m : Mesh α) :
    (c.putMesh k m).shelf =
      { c.shelf with stats := { c.stats with stored := c.stats.stored + 1 } }.putLast k
        { c.content k with mesh := some m } :=
  h.shelf_use ..

/-- The row after an attachment was put under a key. -/
theorem Accounts.shelf_putAttachment {c : Cache α ω} (h : c.Accounts) (k : CacheKey)
    (m : Material) (a : ω) :
    (c.putAttachment k m a).shelf =
      c.shelf.putLast k { c.content k with
        attachments := (c.content k).attachments.insert m.identity a } :=
  h.shelf_use _ _ _ _ c.stats

/-- A request is answered from the row, and leaves the row of the cache after it. -/
theorem Accounts.shelf_serve {c : Cache α ω} (h : c.Accounts) (r : Request α ω β) :
    c.shelf.serve r = ((c.serve r).1, (c.serve r).2.shelf) := by
  cases r with
  | store k m =>
    simp only [Shelf.serve, h.content_shelf, Cache.serve, store]
    rw [(h.putMesh k m).shelf_evict, h.shelf_putMesh]
    rfl
  | attach k m a =>
    simp only [Shelf.serve, h.content_shelf, Cache.serve, attach]
    rw [(h.putAttachment k m a).shelf_evict, h.shelf_putAttachment]
  | lookup k =>
    simp only [Shelf.serve, h.content_shelf, Cache.serve, lookup, mesh?]
    cases he : c.entries.get? k with
    | none => simp only [content, he]; rfl
    | some e =>
      cases hm : (c.content k).mesh with
      | none => rfl
      | some m => exact congrArg (Prod.mk _) (h.shelf_touch he _).symm
  | lookupAttachment k m read =>
    simp only [Shelf.serve, h.content_shelf, Cache.serve, lookupAttachment, attachment?]
    cases he : c.entries.get? k with
    | none => simp only [content, he]; rfl
    | some e =>
      cases ha : (c.content k).attachments.get? m.identity with
      | none => rfl
      | some a => exact congrArg (Prod.mk _) (h.shelf_touch he c.stats).symm
  | contains k => simp only [Cache.serve, Shelf.serve, h.content_shelf, contains, mesh?]
  | clear => rfl

/-- A cache shows what its row shows, whatever is asked of both. -/
theorem Balanced.trace_shelf {c : Cache α ω} (h : c.Balanced) (rs : List (Request α ω β)) :
    trace Cache.serve view c rs = trace Shelf.serve Shelf.view c.shelf rs := by
  induction rs generalizing c with
  | nil => rfl
  | cons r rs ih =>
    rw [trace, trace, h.shelf_serve, (h.serve r).view_shelf, ih (h.serve r)]

end Cache

/-! ## What was just put -/

namespace Shelf

variable {α ω : Type}

/-- What is last in a row is dropped exactly if it costs more than the limit by itself. -/
theorem dropFirst_append_singleton (limit : Nat) (ps : List (CacheKey × CacheContent α ω))
    (p : CacheKey × CacheContent α ω) :
    dropFirst limit (ps ++ [p]) =
      if limit < p.2.cost then [] else (dropFirst limit (ps ++ [p])).dropLast ++ [p] := by
  have hcost : ∀ qs : List (CacheKey × CacheContent α ω), p.2.cost ≤ rowCost (qs ++ [p]) :=
    fun qs => by simp [rowCost]
  induction ps with
  | nil =>
    simp only [List.nil_append, dropFirst, rowCost, List.map_singleton, List.sum_singleton]
    split <;> rfl
  | cons q ps ih =>
    rw [List.cons_append, dropFirst, ← List.cons_append]
    by_cases hover : limit < rowCost (q :: ps ++ [p])
    · rw [if_pos hover]
      exact ih
    · have hle : ¬ limit < p.2.cost := fun hlt => hover (Nat.lt_of_lt_of_le hlt (hcost _))
      rw [if_neg hover, if_neg hle, List.dropLast_concat]

/-- What was just put at the end is dropped exactly if it costs more than the limit by itself. -/
theorem not_mem_evict_putLast (s : Shelf α ω) (k : CacheKey) (content : CacheContent α ω) :
    k ∉ (s.putLast k content).evict.contents.map Prod.fst ↔ s.limit < content.cost := by
  have hrow : (s.putLast k content).evict.contents =
      dropFirst s.limit ((s.contents.filter fun p => p.1 ≠ k) ++ [(k, content)]) := rfl
  rw [hrow, dropFirst_append_singleton]
  split
  · next hlt => simp [hlt]
  · next hle => simp [hle]

end Shelf

namespace Cache

variable {α ω β : Type}

/-- A key has no entry exactly if it is not in the row. -/
theorem Accounts.not_mem_shelf_iff {c : Cache α ω} (h : c.Accounts) (k : CacheKey) :
    k ∉ c.shelf.contents.map Prod.fst ↔ c.entries.get? k = none := by
  rw [shelf, List.map_map]
  change k ∉ c.recency.uses.map Prod.snd ↔ _
  rw [h.keys_perm.mem_iff, Option.eq_none_iff_forall_ne_some]
  constructor
  · exact fun hk e he => hk (List.mem_map.2 ⟨_, Table.get?_eq_some_iff.1 he, rfl⟩)
  · intro hnone hk
    obtain ⟨⟨_, e⟩, hp, rfl⟩ := List.mem_map.1 hk
    exact hnone e (Table.get?_eq_some_iff.2 hp)

/-- A cache answers all requests, and shows after each of them, what a row of contents does in
    which whatever is used is put last and the first contents are dropped where all together cost
    more than the limit. What was just stored or attached to is gone after its own insertion
    exactly if it costs more than the limit by itself. -/
theorem trace_new_eq (limit : Nat) (rs : List (Request α ω β)) :
    trace serve view (new limit : Cache α ω) rs =
        trace Shelf.serve Shelf.view { limit } rs ∧
      let c := (new limit : Cache α ω).after rs
      (∀ k m, (c.store k m).entries.get? k = none ↔
        limit < ({ c.content k with mesh := some m } : CacheContent α ω).cost) ∧
      ∀ k m a, (c.attach k m a).entries.get? k = none ↔
        limit < ({ c.content k with
          attachments := (c.content k).attachments.insert m.identity a } :
            CacheContent α ω).cost := by
  refine ⟨(balanced_new limit).trace_shelf rs, ?_⟩
  intro c
  have h : c.Balanced := (balanced_new limit).after rs
  have hlimit : c.limit = limit := (after_frame (balanced_new limit) rs).1
  refine ⟨fun k m => ?_, fun k m a => ?_⟩
  · have hp := h.putMesh k m
    rw [store, ← hp.evict.not_mem_shelf_iff, hp.shelf_evict, h.shelf_putMesh,
      Shelf.not_mem_evict_putLast]
    exact hlimit ▸ Iff.rfl
  · have hp := h.putAttachment k m a
    rw [attach, ← hp.evict.not_mem_shelf_iff, hp.shelf_evict, h.shelf_putAttachment,
      Shelf.not_mem_evict_putLast]
    exact hlimit ▸ Iff.rfl

end Cache

end Solids
