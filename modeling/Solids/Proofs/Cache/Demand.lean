import Mathlib.Algebra.BigOperators.Group.Finset.Basic
import Mathlib.Data.List.Dedup
import Solids.Proofs.Cache.Shelf

/-!
# Meshes on demand

The mesh of a key is looked up when it is needed, and stored where there is none (`Cache.demand`).
The keys in the order of their last demand are a stack that does not depend on the limit of the
cache, and the cache holds the meshes of the top of the stack, as many as cost no more than the
limit together (`fitting`). One more demand moves its key to the top, whether it is a hit
(`fitting_concat_of_mem`) or a miss (`fitting_concat_of_not_mem`), so this holds after any sequence
of demands (`Cache.OnDemand.demand`, `Cache.onDemand_demands`).

* `Cache.demands_obey_stack`: a mesh is there if the different keys from its last demand on fit in
  the limit, and a greater limit turns no hit into a miss.
-/

namespace Solids

/-! ## Keys that fit in a limit -/

section Fitting

variable {κ : Type} {limit limit' : Nat} {cost : κ → Nat} {ks after : List κ} {k : κ}

/-- The last of some keys, as many as cost no more than the limit together. -/
def fitting (limit : Nat) (cost : κ → Nat) : List κ → List κ
  | [] => []
  | k :: ks => if limit < ((k :: ks).map cost).sum then fitting limit cost ks else k :: ks

/-- Keys that fit all stay. -/
theorem fitting_of_le (h : (ks.map cost).sum ≤ limit) : fitting limit cost ks = ks := by
  cases ks with
  | nil => rfl
  | cons k ks => rw [fitting, if_neg (Nat.not_lt.2 h)]

/-- Before keys that do not fit none stays. -/
theorem fitting_append_of_lt (h : limit < (after.map cost).sum) (before : List κ) :
    fitting limit cost (before ++ after) = fitting limit cost after := by
  induction before with
  | nil => rfl
  | cons k ks ih =>
    have hover : limit < ((k :: (ks ++ after)).map cost).sum := by
      rw [List.map_cons, List.map_append, List.sum_cons, List.sum_append]
      omega
    rw [List.cons_append, fitting, if_pos hover, ih]

/-- Which keys stay before others that fit depends on the cost of these only. -/
theorem exists_fitting_append (h : (after.map cost).sum ≤ limit) (before : List κ) :
    ∃ kept, kept.Sublist before ∧ ∀ after', (after'.map cost).sum = (after.map cost).sum →
      fitting limit cost (before ++ after') = kept ++ after' := by
  induction before with
  | nil => exact ⟨[], .slnil, fun after' heq => fitting_of_le (heq.trans_le h)⟩
  | cons k ks ih =>
    have hsum {after'} (heq : (after'.map cost).sum = (after.map cost).sum) :
        ((k :: ks ++ after').map cost).sum = ((k :: ks ++ after).map cost).sum := by
      rw [List.map_append, List.map_append, List.sum_append, List.sum_append, heq]
    by_cases hover : limit < ((k :: ks ++ after).map cost).sum
    · obtain ⟨kept, hsub, hkept⟩ := ih
      refine ⟨kept, hsub.cons k, fun after' heq => ?_⟩
      rw [List.cons_append, fitting, if_pos (by rwa [← List.cons_append, hsum heq]), hkept _ heq]
    · refine ⟨k :: ks, .refl _, fun after' heq => fitting_of_le ?_⟩
      rw [hsum heq]
      exact Nat.not_lt.1 hover

/-- Keys that do not fit by themselves may be left out before more are added. -/
theorem fitting_fitting_append (ks after : List κ) :
    fitting limit cost (fitting limit cost ks ++ after) = fitting limit cost (ks ++ after) := by
  induction ks with
  | nil => rfl
  | cons k ks ih =>
    rw [fitting]
    split
    · next hover =>
      have hover' : limit < ((k :: (ks ++ after)).map cost).sum := by
        rw [← List.cons_append, List.map_append, List.sum_append]
        exact Nat.lt_add_right _ hover
      rw [ih, List.cons_append, fitting, if_pos hover']
    · rfl

/-- The keys that fit are the last ones. -/
theorem fitting_suffix (limit : Nat) (cost : κ → Nat) (ks : List κ) :
    fitting limit cost ks <:+ ks := by
  induction ks with
  | nil => exact List.suffix_rfl
  | cons k ks ih =>
    rw [fitting]
    split
    · exact ih.trans (List.suffix_cons k ks)
    · exact List.suffix_rfl

/-- In a greater limit fit all keys that fit in a lesser one. -/
theorem fitting_suffix_of_le (h : limit ≤ limit') (cost : κ → Nat) (ks : List κ) :
    fitting limit cost ks <:+ fitting limit' cost ks := by
  induction ks with
  | nil => exact List.suffix_rfl
  | cons k ks ih =>
    by_cases hover : limit' < ((k :: ks).map cost).sum
    · rw [fitting, fitting, if_pos hover, if_pos (h.trans_lt hover)]
      exact ih
    · rw [fitting_of_le (Nat.not_lt.1 hover)]
      exact fitting_suffix limit cost _

/-- A key stays if it fits together with those after it. -/
theorem mem_fitting_iff (hk : k ∉ after) (before : List κ) :
    k ∈ fitting limit cost (before ++ k :: after) ↔ ((k :: after).map cost).sum ≤ limit := by
  constructor
  · intro hmem
    by_contra hover
    have hover : limit < ((k :: after).map cost).sum := Nat.not_le.1 hover
    rw [fitting_append_of_lt hover, fitting, if_pos hover] at hmem
    exact hk ((fitting_suffix limit cost after).subset hmem)
  · intro hle
    obtain ⟨kept, -, hkept⟩ := exists_fitting_append hle before
    rw [hkept _ rfl]
    exact List.mem_append_right _ List.mem_cons_self

/-- One of different keys comes before and after others. -/
theorem exists_append_of_nodup (hnodup : ks.Nodup) (hk : k ∈ ks) :
    ∃ before after, ks = before ++ k :: after ∧ k ∉ before ∧ k ∉ after := by
  obtain ⟨before, after, rfl⟩ := List.append_of_mem hk
  obtain ⟨hmem, -⟩ := List.nodup_cons.1 (List.nodup_middle.1 hnodup)
  exact ⟨before, after, rfl, not_or.1 (mt List.mem_append.2 hmem)⟩

/-- A key at the end costs what it costs at the start. -/
theorem sum_concat_eq (cost : κ → Nat) (k : κ) (after : List κ) :
    ((after ++ [k]).map cost).sum = ((k :: after).map cost).sum := by
  simp [Nat.add_comm]

variable [DecidableEq κ]

/-- Keys without one that is not among them are all of them. -/
theorem filter_ne_of_not_mem (hk : k ∉ ks) : ks.filter (· ≠ k) = ks :=
  List.filter_eq_self.2 fun _ hx => decide_eq_true fun heq => hk (heq ▸ hx)

/-- Keys without one of them are those before it and those after it. -/
theorem filter_ne_append_cons {before : List κ} (hbefore : k ∉ before) (hafter : k ∉ after) :
    (before ++ k :: after).filter (· ≠ k) = before ++ after := by
  rw [List.filter_append, filter_ne_of_not_mem hbefore, List.filter_cons_of_neg (by simp),
    filter_ne_of_not_mem hafter]

/-- When a key that fits moves to the end, the same keys fit. -/
theorem fitting_concat_of_mem (hnodup : ks.Nodup) (hk : k ∈ fitting limit cost ks) :
    fitting limit cost (ks.filter (· ≠ k) ++ [k]) =
      (fitting limit cost ks).filter (· ≠ k) ++ [k] := by
  obtain ⟨before, after, rfl, hbefore, hafter⟩ :=
    exists_append_of_nodup hnodup ((fitting_suffix limit cost ks).subset hk)
  have hle := (mem_fitting_iff hafter before).1 hk
  obtain ⟨kept, hsub, hkept⟩ := exists_fitting_append hle before
  rw [filter_ne_append_cons hbefore hafter, hkept _ rfl,
    filter_ne_append_cons (fun hmem => hbefore (hsub.subset hmem)) hafter, List.append_assoc,
    List.append_assoc]
  exact hkept _ (sum_concat_eq cost k after)

/-- When a key that does not fit moves to the end or is added there, keys that do not fit without
    it may be left out before. -/
theorem fitting_concat_of_not_mem (hnodup : ks.Nodup) (hk : k ∉ fitting limit cost ks) :
    fitting limit cost (ks.filter (· ≠ k) ++ [k]) =
      fitting limit cost ((fitting limit cost ks).filter (· ≠ k) ++ [k]) := by
  rw [filter_ne_of_not_mem hk, fitting_fitting_append]
  by_cases hmem : k ∈ ks
  · obtain ⟨before, after, rfl, hbefore, hafter⟩ := exists_append_of_nodup hnodup hmem
    have hover : limit < ((k :: after).map cost).sum :=
      Nat.not_le.1 (mt (mem_fitting_iff hafter before).2 hk)
    have hover' := hover.trans_eq (sum_concat_eq cost k after).symm
    rw [filter_ne_append_cons hbefore hafter, List.append_cons before, List.append_assoc before,
      List.append_assoc (before ++ [k]), fitting_append_of_lt hover', fitting_append_of_lt hover']
  · rw [filter_ne_of_not_mem hmem]

/-! ## The order of the last demands -/

/-- One more key is the last one, and no longer where it was. -/
theorem dedup_concat (ks : List κ) (k : κ) :
    (ks ++ [k]).dedup = ks.dedup.filter (· ≠ k) ++ [k] := by
  induction ks with
  | nil => rfl
  | cons x xs ih =>
    by_cases hx : x ∈ xs
    · rw [List.cons_append, List.dedup_cons_of_mem (List.mem_append_left _ hx), ih,
        List.dedup_cons_of_mem hx]
    · rw [List.dedup_cons_of_notMem hx]
      by_cases heq : x = k
      · subst heq
        rw [List.cons_append, List.dedup_cons_of_mem (by simp), ih,
          List.filter_cons_of_neg (by simp)]
      · rw [List.cons_append, List.dedup_cons_of_notMem (by simp [hx, heq]), ih,
          List.filter_cons_of_pos (by simp [heq]), List.cons_append]

/-- The different keys from the last occurrence of one on are the last of all different keys. -/
theorem exists_dedup_append_cons (hk : k ∉ after) (before : List κ) :
    ∃ earlier, (before ++ k :: after).dedup = earlier ++ k :: after.dedup := by
  rw [List.dedup_append, List.dedup_cons_of_notMem hk]
  obtain ⟨earlier, heq⟩ := List.suffix_union_right before (k :: after.dedup)
  exact ⟨earlier, heq.symm⟩

end Fitting

namespace Cache

variable {α ω : Type}

/-! ## Demands -/

/-- The mesh of a key is looked up, and stored where there is none. -/
def demand (mesh : CacheKey → Mesh α) (c : Cache α ω) (k : CacheKey) : Cache α ω :=
  match c.lookup k with
  | (some _, c) => c
  | (none, c) => c.store k (mesh k)

/-- The cache after one demand after another. -/
def demands (mesh : CacheKey → Mesh α) (c : Cache α ω) (ks : List CacheKey) : Cache α ω :=
  ks.foldl (demand mesh) c

/-- One more demand is made of the cache after the others. -/
theorem demands_concat (mesh : CacheKey → Mesh α) (c : Cache α ω) (ks : List CacheKey)
    (k : CacheKey) : c.demands mesh (ks ++ [k]) = (c.demands mesh ks).demand mesh k :=
  List.foldl_concat _ _ _ _

variable {mesh : CacheKey → Mesh α} {limit : Nat} {ks : List CacheKey} {c : Cache α ω}

/-- A demand is a lookup, and a store where there is no mesh. -/
theorem demand_eq (mesh : CacheKey → Mesh α) (c : Cache α ω) (k : CacheKey) :
    c.demand mesh k =
      if c.contains k then (c.lookup k).2 else (c.lookup k).2.store k (mesh k) := by
  rw [demand, contains, ← lookup_fst]
  rcases c.lookup k with ⟨_ | m, c'⟩ <;> rfl

/-- A demand leaves a cache balanced. -/
theorem Balanced.demand (h : c.Balanced) (k : CacheKey) : (c.demand mesh k).Balanced := by
  have hlookup : (c.lookup k).2.Balanced := h.serve (β := Unit) (.lookup k)
  rw [demand_eq]
  split
  · exact hlookup
  · exact hlookup.serve (β := Unit) (.store k (mesh k))

/-- A demand moves the content of its key to the end of the row, or puts it there and drops the
    first contents. -/
theorem Balanced.shelf_demand (h : c.Balanced) (mesh : CacheKey → Mesh α) (k : CacheKey) :
    (c.demand mesh k).shelf =
      if c.contains k then
        { c.shelf with stats := { c.stats with hits := c.stats.hits + 1 } }.putLast k (c.content k)
      else
        ({ c.shelf with stats := { c.stats with
              misses := c.stats.misses + 1, stored := c.stats.stored + 1 } }.putLast k
            { c.content k with mesh := some (mesh k) }).evict := by
  have hlookup := congrArg Prod.snd (h.shelf_serve (β := Unit) (.lookup k))
  have hfound := h.serve (β := Unit) (.lookup k)
  have hstore := congrArg Prod.snd (hfound.shelf_serve (β := Unit) (.store k (mesh k)))
  simp only [Shelf.serve, h.content_shelf] at hlookup
  simp only [Cache.serve] at hlookup hstore
  rw [demand_eq, contains, mesh?]
  cases hm : (c.content k).mesh with
  | some m =>
    rw [hm] at hlookup
    exact hlookup.symm
  | none =>
    rw [hm] at hlookup
    refine hstore.symm.trans ?_
    rw [← hlookup, ← h.content_shelf k]
    rfl

/-- The row after a demand. -/
theorem Balanced.contents_demand (h : c.Balanced) (mesh : CacheKey → Mesh α) (k : CacheKey) :
    (c.demand mesh k).shelf.contents =
      if c.contains k then (c.shelf.contents.filter fun p => p.1 ≠ k) ++ [(k, c.content k)]
      else Shelf.dropFirst c.limit ((c.shelf.contents.filter fun p => p.1 ≠ k) ++
        [(k, { c.content k with mesh := some (mesh k) })]) := by
  rw [h.shelf_demand]
  split <;> rfl

/-- A demand keeps the limit. -/
theorem Balanced.limit_demand (h : c.Balanced) (mesh : CacheKey → Mesh α) (k : CacheKey) :
    (c.demand mesh k).limit = c.limit := by
  change (c.demand mesh k).shelf.limit = c.limit
  rw [h.shelf_demand]
  split <;> rfl

/-- A demand for a mesh that is not there is a miss. -/
theorem Balanced.misses_demand (h : c.Balanced) (mesh : CacheKey → Mesh α) (k : CacheKey) :
    (c.demand mesh k).stats.misses = c.stats.misses + if c.contains k then 0 else 1 := by
  change (c.demand mesh k).shelf.stats.misses = _
  rw [h.shelf_demand]
  split <;> rfl

/-- The contents that keys have on demand. -/
def row (mesh : CacheKey → Mesh α) (ks : List CacheKey) : List (CacheKey × CacheContent α ω) :=
  ks.map fun k => (k, { mesh := some (mesh k) })

/-- Of the contents of keys those fit in a limit that the keys do. -/
theorem dropFirst_row (mesh : CacheKey → Mesh α) (limit : Nat) (ks : List CacheKey) :
    Shelf.dropFirst limit (row mesh ks : List (CacheKey × CacheContent α ω)) =
      row mesh (fitting limit (fun k => meshCost (mesh k)) ks) := by
  induction ks with
  | nil => rfl
  | cons k ks ih =>
    have hcost : Shelf.rowCost (row mesh (k :: ks) : List (CacheKey × CacheContent α ω)) =
        ((k :: ks).map fun k => meshCost (mesh k)).sum := by
      rw [Shelf.rowCost, row, List.map_map]
      rfl
    change (if limit < Shelf.rowCost (row mesh (k :: ks)) then Shelf.dropFirst limit (row mesh ks)
      else row mesh (k :: ks)) = _
    rw [hcost, ih, fitting]
    split <;> rfl

/-- The row without a key is that of the other keys. -/
theorem filter_row (mesh : CacheKey → Mesh α) (ks : List CacheKey) (k : CacheKey) :
    (row mesh ks : List (CacheKey × CacheContent α ω)).filter (fun p => p.1 ≠ k) =
      row mesh (ks.filter (· ≠ k)) := by
  rw [row, List.filter_map]
  rfl

/-- What is found in a row. -/
theorem lookup_row (mesh : CacheKey → Mesh α) (ks : List CacheKey) (k : CacheKey) :
    (row mesh ks : List (CacheKey × CacheContent α ω)).lookup k =
      if k ∈ ks then some { mesh := some (mesh k) } else none := by
  induction ks with
  | nil => rfl
  | cons x xs ih =>
    rw [row, List.map_cons, List.lookup_cons]
    by_cases hk : k = x
    · simp [hk]
    · simp only [beq_false_of_ne hk, List.mem_cons, hk, false_or]
      exact ih

/-- A cache of which keys were demanded: it holds the meshes of those that fit, in the order of the
    last demands. -/
structure OnDemand (mesh : CacheKey → Mesh α) (limit : Nat) (ks : List CacheKey)
    (c : Cache α ω) : Prop where
  balanced : c.Balanced
  limit_eq : c.limit = limit
  contents_eq :
    c.shelf.contents = row mesh (fitting limit (fun k => meshCost (mesh k)) ks.dedup)

namespace OnDemand

/-- Under a key that fits is its mesh, and nothing else anywhere. -/
theorem content_eq (h : OnDemand mesh limit ks c) (k : CacheKey) : c.content k =
    if k ∈ fitting limit (fun k => meshCost (mesh k)) ks.dedup then { mesh := some (mesh k) }
    else {} := by
  rw [← h.balanced.content_shelf, Shelf.content, h.contents_eq, lookup_row]
  split <;> rfl

/-- What is found under a key is its mesh, if the key fits. -/
theorem mesh?_eq_some_iff (h : OnDemand mesh limit ks c) {k : CacheKey} {m : Mesh α} :
    c.mesh? k = some m ↔
      k ∈ fitting limit (fun k => meshCost (mesh k)) ks.dedup ∧ mesh k = m := by
  rw [mesh?, h.content_eq]
  split <;> simp [*]

/-- There is something under a key if it fits. -/
theorem contains_iff (h : OnDemand mesh limit ks c) (k : CacheKey) :
    c.contains k = true ↔ k ∈ fitting limit (fun k => meshCost (mesh k)) ks.dedup := by
  rw [contains, Option.isSome_iff_exists]
  simp only [h.mesh?_eq_some_iff, exists_and_left, exists_eq', and_true]

/-- A demand moves its key to the top of the stack. -/
theorem demand (h : OnDemand mesh limit ks c) (k : CacheKey) :
    OnDemand mesh limit (ks ++ [k]) (c.demand mesh k) where
  balanced := h.balanced.demand k
  limit_eq := (h.balanced.limit_demand mesh k).trans h.limit_eq
  contents_eq := by
    have hcontents := h.balanced.contents_demand mesh k
    rw [h.limit_eq, h.contents_eq, filter_row] at hcontents
    have hnodup := List.nodup_dedup ks
    have hconcat (ks : List CacheKey) (k : CacheKey) :
        (row mesh (ks ++ [k]) : List (CacheKey × CacheContent α ω)) =
          row mesh ks ++ [(k, { mesh := some (mesh k) })] := List.map_append
    rw [hcontents, dedup_concat]
    split
    · next hk =>
      have hk := (h.contains_iff k).1 hk
      rw [fitting_concat_of_mem hnodup hk, hconcat, h.content_eq, if_pos hk]
    · next hk =>
      have hk := mt (h.contains_iff k).2 hk
      rw [fitting_concat_of_not_mem hnodup hk, ← dropFirst_row, hconcat, h.content_eq, if_neg hk]

end OnDemand

/-- After any demands of a new cache it holds the meshes of the keys that fit. -/
theorem onDemand_demands (mesh : CacheKey → Mesh α) (limit : Nat) (ks : List CacheKey) :
    OnDemand mesh limit ks ((new limit : Cache α ω).demands mesh ks) := by
  induction ks using List.reverseRecOn with
  | nil => exact ⟨balanced_new limit, rfl, rfl⟩
  | append_singleton ks k ih =>
    rw [demands_concat]
    exact ih.demand k

/-- What is found in a cache is found in one with a greater limit after the same demands. -/
theorem mesh?_demands_of_le {limit' : Nat} (h : limit ≤ limit') (mesh : CacheKey → Mesh α)
    (ks : List CacheKey) {k : CacheKey} {m : Mesh α}
    (hm : ((new limit : Cache α ω).demands mesh ks).mesh? k = some m) :
    ((new limit' : Cache α ω).demands mesh ks).mesh? k = some m := by
  rw [(onDemand_demands mesh _ ks).mesh?_eq_some_iff] at hm ⊢
  exact ⟨(fitting_suffix_of_le h _ _).subset hm.1, hm.2⟩

/-- A greater limit adds no miss. -/
theorem misses_demands_le {limit' : Nat} (h : limit ≤ limit') (mesh : CacheKey → Mesh α)
    (ks : List CacheKey) : ((new limit' : Cache α ω).demands mesh ks).stats.misses ≤
      ((new limit : Cache α ω).demands mesh ks).stats.misses := by
  induction ks using List.reverseRecOn with
  | nil => exact Nat.le_refl _
  | append_singleton ks k ih =>
    rw [demands_concat, demands_concat, (onDemand_demands mesh limit' ks).balanced.misses_demand,
      (onDemand_demands mesh limit ks).balanced.misses_demand]
    refine Nat.add_le_add ih ?_
    by_cases hhit : ((new limit : Cache α ω).demands mesh ks).contains k = true
    · obtain ⟨m, hm⟩ := Option.isSome_iff_exists.1 hhit
      have hhit' := Option.isSome_iff_exists.2 ⟨m, mesh?_demands_of_le h mesh ks hm⟩
      rw [if_pos hhit, contains, if_pos hhit']
    · rw [if_neg hhit]
      split <;> omega

/-- After any demands of a new cache, the mesh of a key that was demanded is there exactly if the
    meshes of the different keys from its last demand on cost no more than the limit together. A
    lookup that hits still does, after the same demands, under a greater limit, and there are no
    more misses. -/
theorem demands_obey_stack (mesh : CacheKey → Mesh α) :
    (∀ limit before k after, k ∉ after →
      (((new limit : Cache α ω).demands mesh (before ++ k :: after)).contains k = true ↔
        ∑ k' ∈ (k :: after).toFinset, meshCost (mesh k') ≤ limit)) ∧
      ∀ limit limit', limit ≤ limit' → ∀ ks,
        (∀ k m, (((new limit : Cache α ω).demands mesh ks).lookup k).1 = some m →
          (((new limit' : Cache α ω).demands mesh ks).lookup k).1 = some m) ∧
        ((new limit' : Cache α ω).demands mesh ks).stats.misses ≤
          ((new limit : Cache α ω).demands mesh ks).stats.misses := by
  refine ⟨fun limit before k after hk => ?_, fun limit limit' h ks =>
    ⟨fun k m hm => ?_, misses_demands_le h mesh ks⟩⟩
  · obtain ⟨earlier, hdedup⟩ := exists_dedup_append_cons hk before
    have hk' : k ∉ after.dedup := mt List.mem_dedup.1 hk
    have hdistinct : (k :: after).dedup.toFinset = (k :: after).toFinset :=
      Finset.ext fun x => by rw [List.mem_toFinset, List.mem_toFinset, List.mem_dedup]
    rw [(onDemand_demands mesh limit _).contains_iff, hdedup, mem_fitting_iff hk',
      ← List.dedup_cons_of_notMem hk, ← List.sum_toFinset _ (List.nodup_dedup _), hdistinct]
  · rw [lookup_fst] at hm ⊢
    exact mesh?_demands_of_le h mesh ks hm

/-- A mesh of as many triangles as the key says, all over one vertex. -/
def pile (k : CacheKey) : Mesh Float where
  triangles := List.replicate k.number.toNat ⟨0, 0, 0⟩

/-- A mesh without triangles costs nothing, and yet it is dropped for one that costs more than the
    limit by itself, which is not kept either. In a greater limit both of them are. -/
theorem demands_obey_stack_pile :
    let demanded limit := (new limit : Cache Float Unit).demands pile [⟨1⟩, ⟨0⟩, ⟨3⟩, ⟨1⟩]
    ((demanded 250).contains ⟨1⟩ = true ∧ (demanded 250).contains ⟨0⟩ = false ∧
        (demanded 250).contains ⟨3⟩ = false) ∧
      (demanded 400).contains ⟨0⟩ = true ∧ (demanded 400).contains ⟨3⟩ = true ∧
        (demanded 400).stats.misses ≤ (demanded 250).stats.misses := by
  intro demanded
  obtain ⟨hpresent, hgreater⟩ := demands_obey_stack (ω := Unit) pile
  have hone (limit) := hpresent limit [⟨1⟩, ⟨0⟩, ⟨3⟩] ⟨1⟩ [] (by decide)
  have hfree (limit) := hpresent limit [⟨1⟩] ⟨0⟩ [⟨3⟩, ⟨1⟩] (by decide)
  have hthree (limit) := hpresent limit [⟨1⟩, ⟨0⟩] ⟨3⟩ [⟨1⟩] (by decide)
  refine ⟨⟨(hone 250).2 (by decide), ?_, ?_⟩, (hfree 400).2 (by decide), (hthree 400).2 (by decide),
    (hgreater 250 400 (by decide) _).2⟩
  · exact Bool.eq_false_iff.2 (mt (hfree 250).1 (by decide))
  · exact Bool.eq_false_iff.2 (mt (hthree 250).1 (by decide))

end Cache

end Solids
