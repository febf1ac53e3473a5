import Mathlib.Algebra.Ring.Nat
import Solids.Proofs.Cache.Request

/-!
# The accounts of a cache

A cache keeps three things in step: its entries, the order of their last uses, and the sum of
their costs. They agree (`Cache.Accounts`) after every request, and between a store and the
evictions that follow it, too.

* `Accounts.use`: an entry that is written and used anew keeps the accounts, if the total is changed
  by what the entry's cost was changed by;
* `Accounts.evictOldest`: so does one round of evictions, which always finds the entry of the least
  recent use and never takes more from the total than is in it;
* `Accounts.evict`: the evictions end within the limit.
-/

namespace Solids

/-! ## Sums over tables -/

namespace Table

variable {κ β : Type} [DecidableEq κ]

/-- The sum of a quantity over the values of a table. -/
def sum (f : β → Nat) (t : Table κ β) : Nat := (t.pairs.map fun p => f p.2).sum

/-- A new value adds its quantity, and that of the value in its place is lost. -/
theorem sum_insert (f : β → Nat) (t : Table κ β) (k : κ) (v : β) :
    (t.insert k v).sum f + ((t.get? k).map f).getD 0 = t.sum f + f v := by
  simp only [sum, insert, get?]
  induction t.pairs with
  | nil => simp [put, find?]
  | cons p ps ih =>
    obtain ⟨q, w⟩ := p
    by_cases h : q = k
    · simp only [put, find?, h, if_true, List.map_cons, List.sum_cons, Option.map_some,
        Option.getD_some]
      omega
    · simp only [put, find?, h, if_false, List.map_cons, List.sum_cons]
      omega

/-- A key that is taken out takes its quantity along. -/
theorem sum_erase (f : β → Nat) (t : Table κ β) (k : κ) :
    (t.erase k).sum f + ((t.get? k).map f).getD 0 = t.sum f := by
  obtain ⟨pairs, nodup⟩ := t
  simp only [sum, erase, get?]
  induction pairs with
  | nil => simp [find?]
  | cons p ps ih =>
    obtain ⟨q, w⟩ := p
    obtain ⟨hq, hps⟩ := List.nodup_cons.1 nodup
    by_cases h : q = k
    · -- No other pair has the key, so the rest of the list stays whole.
      have hrest : ps.filter (fun p => p.1 ≠ k) = ps := by
        rw [List.filter_eq_self]
        intro p hp
        refine decide_eq_true ?_
        intro he
        exact hq (List.mem_map.2 ⟨p, hp, he.trans h.symm⟩)
      rw [List.filter_cons_of_neg (by simpa using h), hrest]
      simp [find?, h, Nat.add_comm]
    · have := ih hps
      rw [List.filter_cons_of_pos (by simpa using h)]
      simp only [find?, h, if_false, List.map_cons, List.sum_cons]
      omega

omit [DecidableEq κ] in
/-- The number of keys is a sum of ones. -/
theorem sum_one (t : Table κ β) : t.sum (fun _ => 1) = t.size := by
  rw [sum, size, List.map_const', List.sum_replicate_nat, Nat.mul_one]

/-- A new value for a key that had none is one more. -/
theorem size_insert (t : Table κ β) (k : κ) (v : β) :
    (t.insert k v).size = t.size + if (t.get? k).isNone then 1 else 0 := by
  have h := sum_insert (fun _ => 1) t k v
  rw [sum_one, sum_one] at h
  cases hk : t.get? k <;> simp [hk] at h ⊢ <;> omega

/-- Without values there is no quantity. -/
theorem sum_eq_zero {f : β → Nat} {t : Table κ β} (h : ∀ k, t.get? k = none) : t.sum f = 0 := by
  have hnil : t.pairs = [] := by
    rw [List.eq_nil_iff_forall_not_mem]
    intro p hp
    have hnone := h p.1
    rw [get?_eq_some_iff.2 hp] at hnone
    cases hnone
  rw [sum, hnil]
  rfl

/-- No value has a greater quantity than all together. -/
theorem le_sum {f : β → Nat} {t : Table κ β} {k : κ} {v : β} (h : t.get? k = some v) :
    f v ≤ t.sum f := by
  have := sum_erase f t k
  simp only [h, Option.map_some, Option.getD_some] at this
  omega

end Table

/-- What a content costs: its mesh, if there is one, and its attachments. -/
def CacheContent.cost {α ω : Type} (content : CacheContent α ω) : Nat :=
  (content.mesh.map Cache.meshCost).getD 0 + Cache.attachmentCost * content.attachments.size

namespace Cache

variable {α ω β : Type}

/-! ## The invariant -/

/-- The entries, the order of use and the total cost of a cache agree. -/
structure Accounts (c : Cache α ω) : Prop where
  /-- An entry costs what its content costs. -/
  cost_eq : ∀ {k e}, c.entries.get? k = some e → e.cost = e.toCacheContent.cost
  /-- The total is the sum of the entries' costs. -/
  totalCost_eq : c.totalCost = c.entries.sum CacheEntry.cost
  /-- The order of use has exactly the entries, each at the tick of its last use. -/
  mem_uses_iff : ∀ {t k}, (t, k) ∈ c.recency.uses ↔
    ∃ e, c.entries.get? k = some e ∧ e.lastUsed = t
  /-- No use is later than the last tick taken. -/
  le_tick : ∀ use ∈ c.recency.uses, use.1 ≤ c.tick

/-- The accounts agree, and the total cost is within the limit. -/
structure Balanced (c : Cache α ω) : Prop extends Accounts c where
  totalCost_le : c.totalCost ≤ c.limit

/-- A cache without entries is balanced, whatever its limit, tick and counts. -/
theorem balanced_of_empty {c : Cache α ω} (hentries : c.entries = {}) (hrecency : c.recency = {})
    (htotal : c.totalCost = 0) : c.Balanced where
  cost_eq he := by
    rw [hentries] at he
    cases he
  totalCost_eq := by
    rw [hentries, htotal]
    rfl
  mem_uses_iff := by
    rw [hentries, hrecency]
    intro t k
    constructor
    · intro hu
      cases hu
    · rintro ⟨e, he, _⟩
      cases he
  le_tick use hu := by
    rw [hrecency] at hu
    cases hu
  totalCost_le := by
    rw [htotal]
    exact Nat.zero_le _

/-- A new cache is balanced. -/
theorem balanced_new (limit : Nat) : (new limit : Cache α ω).Balanced :=
  balanced_of_empty rfl rfl rfl

/-- A key that is used has the new entry; the other entries stay. -/
theorem get?_use (c : Cache α ω) (k k' : CacheKey) (content : CacheContent α ω) (cost : Nat) :
    (c.use k content cost).entries.get? k' =
      if k = k' then some { content with cost, lastUsed := c.tick + 1 }
      else c.entries.get? k' :=
  Table.get?_insert _ _ _ _

/-- What a round of evictions does where there is an entry of the earliest use. -/
theorem evictOldest_eq {c : Cache α ω} {use : Nat × CacheKey} {uses : List (Nat × CacheKey)}
    {e : CacheEntry α ω} (huses : c.recency.uses = use :: uses)
    (he : c.entries.get? use.2 = some e) :
    c.evictOldest =
      { c with
        entries := c.entries.erase use.2
        recency := c.recency.tail
        totalCost := c.totalCost - e.cost
        stats := { c.stats with evictions := c.stats.evictions + 1 } } := by
  simp only [evictOldest, huses, drop, he]

/-- A cache whose entries, order of use, total and tick are those of another has its accounts. -/
theorem Accounts.of_eq {c c' : Cache α ω} (h : c.Accounts) (hentries : c'.entries = c.entries)
    (hrecency : c'.recency = c.recency) (htotal : c'.totalCost = c.totalCost)
    (htick : c.tick ≤ c'.tick) : c'.Accounts where
  cost_eq := by rw [hentries]; exact h.cost_eq
  totalCost_eq := by rw [hentries, htotal]; exact h.totalCost_eq
  mem_uses_iff := by rw [hentries, hrecency]; exact h.mem_uses_iff
  le_tick := by rw [hrecency]; exact fun use hu => Nat.le_trans (h.le_tick use hu) htick

namespace Accounts

variable {c : Cache α ω} (h : c.Accounts)
include h

/-- Two entries were not used last at one tick. -/
theorem lastUsed_inj {k k' : CacheKey} {e e' : CacheEntry α ω} (he : c.entries.get? k = some e)
    (he' : c.entries.get? k' = some e') (heq : e.lastUsed = e'.lastUsed) : k = k' :=
  Timeline.eq_of_mem_of_mem (h.mem_uses_iff.2 ⟨e, he, heq⟩) (h.mem_uses_iff.2 ⟨e', he', rfl⟩)

/-- An entry costs no more than all together. -/
theorem costAt_le (k : CacheKey) : c.costAt k ≤ c.totalCost := by
  rw [h.totalCost_eq, costAt]
  split
  · next e he => exact Table.le_sum he
  · exact Nat.zero_le _

/-- What the table says about a key's cost is what its content costs. -/
theorem costAt_eq (k : CacheKey) : c.costAt k = (c.content k).cost := by
  rw [costAt, content]
  split
  · next e he => exact h.cost_eq he
  · rfl

/-! ## Uses -/

/-- Without a key, the order of use has all other keys as before. -/
theorem uses_recencyWithout (k : CacheKey) :
    (c.recencyWithout k).uses = c.recency.uses.filter fun use => use.2 ≠ k := by
  rw [recencyWithout]
  split
  · next e he =>
    refine List.filter_congr ?_
    intro use hu
    rw [decide_eq_decide]
    refine not_congr ⟨fun ht => ?_, fun hk => ?_⟩
    · -- What is at the tick of the entry's last use is the entry.
      exact Timeline.eq_of_mem_of_mem (ht ▸ hu) (h.mem_uses_iff.2 ⟨e, he, rfl⟩)
    · obtain ⟨e', he', ht⟩ := h.mem_uses_iff.1 hu
      rw [hk, he, Option.some.injEq] at he'
      rw [← ht, ← he']
  · next he =>
    refine (List.filter_eq_self.2 ?_).symm
    intro use hu
    obtain ⟨e', he', _⟩ := h.mem_uses_iff.1 hu
    refine decide_eq_true ?_
    intro hk
    rw [hk, he] at he'
    cases he'

/-- A key that is used is the last one in the order of use. -/
theorem uses_use (k : CacheKey) (content : CacheContent α ω) (cost : Nat) :
    (c.use k content cost).recency.uses =
      (c.recency.uses.filter fun use => use.2 ≠ k) ++ [(c.tick + 1, k)] := by
  rw [← h.uses_recencyWithout]
  refine Timeline.uses_insert_of_later k fun use hu => ?_
  rw [h.uses_recencyWithout] at hu
  exact Nat.lt_succ_of_le (h.le_tick use (List.mem_filter.1 hu).1)

/-- An entry that is written and used anew keeps the accounts, if the total is changed by what its
    cost was changed by. -/
theorem use {k : CacheKey} {content : CacheContent α ω} {cost total : Nat} {stats : CacheStats}
    (hcost : cost = content.cost) (htotal : total + c.costAt k = c.totalCost + cost) :
    ({ c.use k content cost with totalCost := total, stats } : Cache α ω).Accounts where
  cost_eq {k' e} he := by
    simp only [Cache.use, Table.get?_insert] at he
    split at he
    · rw [← Option.some.inj he]
      exact hcost
    · exact h.cost_eq he
  totalCost_eq := by
    have hsum := Table.sum_insert CacheEntry.cost c.entries k
      { content with cost, lastUsed := c.tick + 1 }
    have hold : ((c.entries.get? k).map CacheEntry.cost).getD 0 = c.costAt k := by
      rw [costAt]
      cases c.entries.get? k <;> rfl
    rw [← h.totalCost_eq, hold, ← htotal] at hsum
    exact (Nat.add_right_cancel hsum).symm
  mem_uses_iff {t k'} := by
    change (t, k') ∈ (c.use k content cost).recency.uses ↔
      ∃ e, (c.use k content cost).entries.get? k' = some e ∧ e.lastUsed = t
    rw [h.uses_use, get?_use, List.mem_append, List.mem_filter, List.mem_singleton,
      h.mem_uses_iff]
    by_cases hk : k = k'
    · subst hk
      simp [eq_comm]
    · simp [hk, Ne.symm hk]
  le_tick use hu := by
    change use ∈ (c.use k content cost).recency.uses at hu
    rw [h.uses_use, List.mem_append, List.mem_filter, List.mem_singleton] at hu
    rcases hu with ⟨hu, _⟩ | rfl
    · exact Nat.le_succ_of_le (h.le_tick use hu)
    · exact Nat.le_refl _

/-- A touch keeps the accounts. -/
theorem touch (k : CacheKey) : (c.touch k).Accounts := by
  rw [Cache.touch]
  split
  · next e he =>
    have htotal : c.totalCost + c.costAt k = c.totalCost + e.cost := by rw [costAt, he]
    exact h.use (h.cost_eq he) htotal
  · exact h.of_eq rfl rfl rfl (Nat.le_succ _)

/-- A mesh that is put under a key keeps the accounts. -/
theorem putMesh (k : CacheKey) (m : Mesh α) : (c.putMesh k m).Accounts := by
  refine h.use ?_ ?_
  · simp [CacheContent.cost, Nat.mul_comm]
  · -- What is subtracted was in the total.
    have := h.costAt_le k
    omega

/-- An attachment that is put under a key keeps the accounts. -/
theorem putAttachment (k : CacheKey) (m : Material) (a : ω) :
    (c.putAttachment k m a).Accounts := by
  refine h.use ?_ (by omega)
  rw [h.costAt_eq]
  simp only [CacheContent.cost, Table.size_insert, Nat.mul_add]
  split <;> rfl

/-! ## Evictions -/

/-- A cache over its limit has an entry of the earliest use, which costs no more than all
    together. -/
theorem exists_oldest (hover : c.limit < c.totalCost) :
    ∃ use uses e, c.recency.uses = use :: uses ∧ c.entries.get? use.2 = some e ∧
      e.lastUsed = use.1 ∧ e.cost ≤ c.totalCost := by
  cases huses : c.recency.uses with
  | nil =>
    -- Without uses there are no entries, and nothing costs anything.
    have hnone : ∀ k, c.entries.get? k = none := by
      intro k
      rw [Option.eq_none_iff_forall_ne_some]
      intro e he
      have hmem := h.mem_uses_iff.2 ⟨e, he, rfl⟩
      rw [huses] at hmem
      cases hmem
    rw [h.totalCost_eq, Table.sum_eq_zero hnone] at hover
    exact absurd hover (Nat.not_lt_zero _)
  | cons use uses =>
    obtain ⟨e, he, ht⟩ := h.mem_uses_iff.1 (huses ▸ List.mem_cons_self : use ∈ c.recency.uses)
    refine ⟨use, uses, e, rfl, he, ht, ?_⟩
    rw [h.totalCost_eq]
    exact Table.le_sum he

/-- A round of evictions keeps the accounts. -/
theorem evictOldest (hover : c.limit < c.totalCost) : c.evictOldest.Accounts := by
  obtain ⟨use, uses, e, huses, he, ht, hle⟩ := h.exists_oldest hover
  have hrising := huses ▸ c.recency.rising
  rw [evictOldest_eq huses he]
  refine ⟨fun {k e'} he' => ?_, ?_, fun {t k} => ?_, fun use' hu => ?_⟩
  · rw [Table.get?_erase] at he'
    split at he'
    · cases he'
    · exact h.cost_eq he'
  · have hsum := Table.sum_erase CacheEntry.cost c.entries use.2
    simp only [he, Option.map_some, Option.getD_some, ← h.totalCost_eq] at hsum
    exact (Nat.eq_sub_of_add_eq hsum).symm
  · simp only [Timeline.tail, huses, List.tail_cons, Table.get?_erase]
    have hmem := h.mem_uses_iff (t := t) (k := k)
    rw [huses, List.mem_cons] at hmem
    by_cases hk : use.2 = k
    · -- The key has no later use than the one that was taken out.
      subst hk
      simp only [if_true, reduceCtorEq, false_and, exists_false, iff_false]
      intro hu
      obtain ⟨e', he', ht'⟩ := hmem.1 (.inr hu)
      rw [he, Option.some.injEq] at he'
      have hlt : use.1 < t := List.rel_of_pairwise_cons hrising hu
      rw [← ht, ← ht', he'] at hlt
      exact Nat.lt_irrefl _ hlt
    · rw [if_neg hk, ← hmem]
      exact (or_iff_right fun heq => hk (congrArg Prod.snd heq).symm).symm
  · exact h.le_tick use' (List.mem_of_mem_tail hu)

end Accounts

/-- The states in which the evictions from a cache compare its cost with the limit. -/
inductive Evicting (c₀ : Cache α ω) : Cache α ω → Prop
  | start : Evicting c₀ c₀
  | round {c : Cache α ω} : Evicting c₀ c → c.limit < c.totalCost → Evicting c₀ c.evictOldest

/-- All rounds of evictions keep the accounts. -/
theorem Accounts.of_evicting {c₀ c : Cache α ω} (h : c₀.Accounts) (he : Evicting c₀ c) :
    c.Accounts := by
  induction he with
  | start => exact h
  | round _ hover ih => exact ih.evictOldest hover

/-- A round of evictions changes neither the limit nor the tick. -/
theorem evictOldest_frame (c : Cache α ω) :
    c.evictOldest.limit = c.limit ∧ c.evictOldest.tick = c.tick := by
  rw [evictOldest]
  split
  · rw [drop]
    split <;> exact ⟨rfl, rfl⟩
  · exact ⟨rfl, rfl⟩

/-- Evictions change neither the limit nor the tick. -/
theorem Evicting.frame {c₀ c : Cache α ω} (he : Evicting c₀ c) :
    c.limit = c₀.limit ∧ c.tick = c₀.tick := by
  induction he with
  | start => exact ⟨rfl, rfl⟩
  | @round c _ _ ih =>
    obtain ⟨hlimit, htick⟩ := evictOldest_frame c
    exact ⟨hlimit.trans ih.1, htick.trans ih.2⟩

/-- The evictions from a cache end, and they end within the limit. Each round finds an entry of the
    earliest use, and takes from the total what is in it. -/
structure EvictsCleanly (c₀ : Cache α ω) : Prop where
  /-- A round never finds the order of use empty, a key without an entry, or too small a total. -/
  exists_oldest : ∀ c, Evicting c₀ c → c.limit < c.totalCost →
    ∃ use uses e, c.recency.uses = use :: uses ∧ c.entries.get? use.2 = some e ∧
      e.cost ≤ c.totalCost
  /-- The result is what some number of rounds leave. -/
  evicting_evict : Evicting c₀ c₀.evict
  /-- No further round follows. -/
  totalCost_evict_le : c₀.evict.totalCost ≤ c₀.evict.limit

/-- As many rounds as there are uses left reach the limit. -/
theorem Accounts.evictFrom {c₀ : Cache α ω} (h : c₀.Accounts) {uses : List (Nat × CacheKey)}
    {c : Cache α ω} (he : Evicting c₀ c) (huses : c.recency.uses = uses) :
    Evicting c₀ (evictFrom uses c) ∧
      (Cache.evictFrom uses c).totalCost ≤ (Cache.evictFrom uses c).limit := by
  induction uses generalizing c with
  | nil =>
    refine ⟨he, Nat.le_of_not_lt fun hover => ?_⟩
    obtain ⟨use, uses, _, hne, _⟩ := (h.of_evicting he).exists_oldest hover
    rw [huses] at hne
    cases hne
  | cons use uses ih =>
    rw [Cache.evictFrom]
    split
    · next hover =>
      obtain ⟨use', uses', e, huses', hentry, _⟩ := (h.of_evicting he).exists_oldest hover
      refine ih (he.round hover) ?_
      rw [evictOldest_eq huses' hentry]
      simp [Timeline.tail, huses]
    · next hunder => exact ⟨he, Nat.le_of_not_lt hunder⟩

/-- Where the accounts agree, all evictions are clean. -/
theorem Accounts.evictsCleanly {c : Cache α ω} (h : c.Accounts) : c.EvictsCleanly where
  exists_oldest c' he hover := by
    obtain ⟨use, uses, e, huses, hentry, _, hle⟩ := (h.of_evicting he).exists_oldest hover
    exact ⟨use, uses, e, huses, hentry, hle⟩
  evicting_evict := (h.evictFrom .start rfl).1
  totalCost_evict_le := (h.evictFrom .start rfl).2

/-- After the evictions the accounts agree, and the total cost is within the limit. -/
theorem Accounts.evict {c : Cache α ω} (h : c.Accounts) : c.evict.Balanced :=
  { h.of_evicting h.evictsCleanly.evicting_evict with
    totalCost_le := h.evictsCleanly.totalCost_evict_le }

/-! ## Requests -/

/-- A touch changes neither the limit nor the total, and takes one tick. -/
theorem touch_frame (c : Cache α ω) (k : CacheKey) :
    (c.touch k).limit = c.limit ∧ (c.touch k).totalCost = c.totalCost ∧
      (c.touch k).tick = c.tick + 1 := by
  rw [touch]
  split <;> exact ⟨rfl, rfl, rfl⟩

/-- A touch leaves a cache balanced. -/
theorem Balanced.touch {c : Cache α ω} (h : c.Balanced) (k : CacheKey) :
    (c.touch k).Balanced :=
  { h.toAccounts.touch k with
    totalCost_le := by
      obtain ⟨hlimit, htotal, _⟩ := touch_frame c k
      rw [hlimit, htotal]
      exact h.totalCost_le }

/-- Counting leaves a cache balanced. -/
theorem Balanced.count {c : Cache α ω} (h : c.Balanced) (stats : CacheStats) :
    ({ c with stats } : Cache α ω).Balanced :=
  { h.toAccounts.of_eq rfl rfl rfl (Nat.le_refl _) with totalCost_le := h.totalCost_le }

/-- A cleared cache is balanced. -/
theorem balanced_clear (c : Cache α ω) : c.clear.Balanced :=
  balanced_of_empty rfl rfl rfl

/-- Every request leaves a cache balanced. -/
theorem Balanced.serve {c : Cache α ω} (h : c.Balanced) (r : Request α ω β) :
    (c.serve r).2.Balanced := by
  cases r with
  | store k m => exact (h.putMesh k m).evict
  | attach k m a => exact (h.putAttachment k m a).evict
  | lookup k =>
    simp only [Cache.serve, lookup]
    split
    · exact (h.count _).touch k
    · exact h.count _
  | lookupAttachment k m read =>
    simp only [Cache.serve, lookupAttachment]
    split
    · exact h.touch k
    · exact h
  | contains k => exact h
  | clear => exact balanced_clear c

/-- A request keeps the limit and takes at most one tick. -/
theorem serve_frame {c : Cache α ω} (h : c.Balanced) (r : Request α ω β) :
    (c.serve r).2.limit = c.limit ∧ (c.serve r).2.tick ≤ c.tick + 1 := by
  cases r with
  | store k m =>
    have he := (h.putMesh k m).evictsCleanly.evicting_evict.frame
    exact ⟨he.1, Nat.le_of_eq he.2⟩
  | attach k m a =>
    have he := (h.putAttachment k m a).evictsCleanly.evicting_evict.frame
    exact ⟨he.1, Nat.le_of_eq he.2⟩
  | lookup k =>
    simp only [Cache.serve, lookup]
    split
    · exact ⟨(touch_frame _ k).1, Nat.le_of_eq (touch_frame _ k).2.2⟩
    · exact ⟨rfl, Nat.le_succ _⟩
  | lookupAttachment k m read =>
    simp only [Cache.serve, lookupAttachment]
    split
    · exact ⟨(touch_frame c k).1, Nat.le_of_eq (touch_frame c k).2.2⟩
    · exact ⟨rfl, Nat.le_succ _⟩
  | contains k => exact ⟨rfl, Nat.le_succ _⟩
  | clear => exact ⟨rfl, Nat.le_succ _⟩

/-- A cache in use is balanced. -/
theorem Balanced.after {c : Cache α ω} (h : c.Balanced) (rs : List (Request α ω β)) :
    (c.after rs).Balanced :=
  after_induction h (fun _ r h => h.serve r) rs

/-- A cache in use keeps its limit, and takes at most one tick per request. -/
theorem after_frame {c : Cache α ω} (h : c.Balanced) (rs : List (Request α ω β)) :
    (c.after rs).limit = c.limit ∧ (c.after rs).tick ≤ c.tick + rs.length := by
  induction rs generalizing c with
  | nil => exact ⟨rfl, Nat.le_refl _⟩
  | cons r rs ih =>
    obtain ⟨hlimit, htick⟩ := ih (h.serve r)
    obtain ⟨hlimit', htick'⟩ := serve_frame h r
    rw [after_cons, List.length_cons]
    exact ⟨hlimit.trans hlimit', by omega⟩

/-- The accounts of every cache in use agree and its cost is within the limit: an entry costs what
    its mesh and its attachments cost, the total is the sum of the entries' costs, and the order of
    use has exactly the entries, each at a tick of its own, none above the last tick taken, of
    which every request takes at most one. So nothing is ever subtracted from the total that is not
    in it, be it for the entry in whose place a mesh is put or for an entry that is dropped, and
    after a store or an attachment every round of evictions has an entry to drop until the cost is
    within the limit. -/
theorem accounts_after (limit : Nat) (rs : List (Request α ω β)) :
    let c := (new limit : Cache α ω).after rs
    c.limit = limit ∧ c.Balanced ∧ c.tick ≤ rs.length ∧
      (∀ k k' e e', c.entries.get? k = some e → c.entries.get? k' = some e' →
        e.lastUsed = e'.lastUsed → k = k') ∧
      (∀ k, c.costAt k ≤ c.totalCost) ∧
      (∀ k m, (c.putMesh k m).EvictsCleanly) ∧
      ∀ k m a, (c.putAttachment k m a).EvictsCleanly := by
  intro c
  have h : c.Balanced := (balanced_new limit).after rs
  obtain ⟨hlimit, htick⟩ := after_frame (balanced_new limit : (new limit : Cache α ω).Balanced) rs
  refine ⟨hlimit, h, ?_, fun k k' e e' he he' => h.lastUsed_inj he he', h.costAt_le,
    fun k m => (h.putMesh k m).evictsCleanly, fun k m a => (h.putAttachment k m a).evictsCleanly⟩
  exact Nat.zero_add rs.length ▸ htick

end Cache

end Solids
