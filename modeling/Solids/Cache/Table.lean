/-!
# Tables

A table gives values to keys, at most one to each, and keeps its pairs in the order in which the
keys came (`Table`). `get?_insert` and `get?_erase` say what it answers after a change.
-/

namespace Solids

/-- Values by key, in the order in which the keys came. -/
structure Table (κ β : Type) where
  pairs : List (κ × β) := []
  /-- A key has one value. -/
  nodup : (pairs.map Prod.fst).Nodup := by exact List.nodup_nil

namespace Table

variable {κ β : Type} [DecidableEq κ]

/-- The value of a key in a list of pairs. -/
def find? (k : κ) : List (κ × β) → Option β
  | [] => none
  | (k', v) :: rest => if k' = k then some v else find? k rest

/-- A list of pairs with a new value for a key, at the end if it has none. -/
def put (k : κ) (v : β) : List (κ × β) → List (κ × β)
  | [] => [(k, v)]
  | (k', v') :: rest => if k' = k then (k, v) :: rest else (k', v') :: put k v rest

/-- A new value brings no key but its own. -/
theorem mem_keys_put {k k' : κ} {v : β} {ps : List (κ × β)} :
    k' ∈ (put k v ps).map Prod.fst ↔ k' = k ∨ k' ∈ ps.map Prod.fst := by
  induction ps with
  | nil => simp [put]
  | cons p ps ih => grind [put]

/-- A new value gives no key a second one. -/
theorem nodup_put {k : κ} {v : β} {ps : List (κ × β)} (h : (ps.map Prod.fst).Nodup) :
    ((put k v ps).map Prod.fst).Nodup := by
  induction ps with
  | nil => simp [put]
  | cons p ps ih =>
    obtain ⟨hp, hps⟩ := List.nodup_cons.1 h
    unfold put
    split
    · next heq => exact heq ▸ h
    · next hne =>
      refine List.nodup_cons.2 ⟨fun hm => ?_, ih hps⟩
      rcases mem_keys_put.1 hm with hk | hm
      · exact hne hk
      · exact hp hm

/-- The table without keys. -/
def empty : Table κ β := {}

/-- The number of keys. -/
def size (t : Table κ β) : Nat := t.pairs.length

/-- There are no keys. -/
def isEmpty (t : Table κ β) : Bool := t.pairs.isEmpty

/-- The value of a key. -/
def get? (t : Table κ β) (k : κ) : Option β := find? k t.pairs

/-- The table with a new value for a key. -/
def insert (t : Table κ β) (k : κ) (v : β) : Table κ β where
  pairs := put k v t.pairs
  nodup := nodup_put t.nodup

/-- The table without a key. -/
def erase (t : Table κ β) (k : κ) : Table κ β where
  pairs := t.pairs.filter fun p => p.1 ≠ k
  nodup := t.nodup.sublist (List.filter_sublist.map _)

/-- The empty table answers nothing. -/
@[simp] theorem get?_empty (k : κ) : (empty : Table κ β).get? k = none := rfl

/-- A new value answers for its key and for no other. -/
@[simp] theorem get?_insert (t : Table κ β) (k k' : κ) (v : β) :
    (t.insert k v).get? k' = if k = k' then some v else t.get? k' := by
  simp only [get?, insert]
  induction t.pairs with
  | nil => simp [put, find?]
  | cons p ps ih =>
    obtain ⟨q, w⟩ := p
    by_cases h : q = k
    · subst h
      by_cases h' : q = k' <;> simp [put, find?, h']
    · by_cases h' : q = k' <;> grind [put, find?]

/-- A key that was taken out has no value; the others keep theirs. -/
@[simp] theorem get?_erase (t : Table κ β) (k k' : κ) :
    (t.erase k).get? k' = if k = k' then none else t.get? k' := by
  simp only [get?, erase]
  induction t.pairs with
  | nil => simp [find?]
  | cons p ps ih => obtain ⟨q, w⟩ := p; grind [find?]

/-- A key has a value exactly if the table holds the pair. -/
theorem get?_eq_some_iff {t : Table κ β} {k : κ} {v : β} :
    t.get? k = some v ↔ (k, v) ∈ t.pairs := by
  obtain ⟨pairs, nodup⟩ := t
  simp only [get?]
  induction pairs with
  | nil => simp [find?]
  | cons p ps ih =>
    obtain ⟨q, w⟩ := p
    obtain ⟨hq, hps⟩ := List.nodup_cons.1 nodup
    by_cases hk : q = k
    · subst hk
      have hv : (q, v) ∉ ps := fun hm => hq (List.mem_map.2 ⟨_, hm, rfl⟩)
      simp [find?, hv, eq_comm]
    · simp [find?, hk, ih hps, Ne.symm hk]

end Table

end Solids
